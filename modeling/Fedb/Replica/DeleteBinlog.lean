import Fedb.Replica.LogReplicator

/-! # What `DeleteBinlog` keeps

`DeleteBinlog()` drops the parts at or below `min_log_index`, one less than
the smallest of the snapshot's part and of the part of every node's reader.
On every state a run of the binlog reaches, it drops only what no reader
needs (`deleteBinlog_keeps_needed`):

* a part it drops holds only entries at or before the snapshot's offset, and
  entries before every entry of a part at or after the one a node's reader
  is at: those a reader at that part has still to read;
* a new reader from the snapshot's offset, as `RecoverFromBinlog` makes one,
  and the reader of every node read after it exactly what they read before,
  read after read;
* when every `unlink` succeeds, the part files left are the parts left.

The first rests on what a run writes (`Inv`): an entry goes to the part being
written, after the start offset of every part up to it and at or before the
start offset of every later one. The second rests on the walks of
`RollRLogFile`, which for these readers never look below the part they start
from (`LogReader.Window`), a part `DeleteBinlog` keeps.
-/

namespace Fedb.Replica

open Fedb.Log Fedb.Base

namespace LogReplicator

/-! ## `LogParts` under `Insert` and `Split` -/

/-- A part sorts after `k` in `DefaultComparator` order when its index is
above `k`. -/
theorem isAfter_partComparator (k : Nat) :
    Chain.isAfter (Prod.fst : Nat × Nat → Nat) partComparator k = fun p => decide (k < p.1) := by
  funext p
  unfold Chain.isAfter partComparator
  rw [decide_eq_decide]
  split_ifs <;> omega

/-- `Split(k)` keeps the parts above `k`. -/
theorem split_parts (k : Nat) (logs : LogParts) :
    (Chain.split Prod.fst partComparator k logs).1 = LogReader.above k logs := by
  rw [Chain.split, isAfter_partComparator]
  rfl

/-- A new part of an index above every part's is linked first. -/
theorem insert_parts {logs : LogParts} {b : Nat} (h : ∀ p ∈ logs, p.1 < b) (s : Nat) :
    Chain.insert Prod.fst partComparator (b, s) logs = (b, s) :: logs := by
  cases logs with
  | nil => rfl
  | cons p rest =>
    have hp : Chain.isAfter Prod.fst partComparator b p = false := by
      rw [isAfter_partComparator, decide_eq_false_iff_not]
      exact Nat.not_lt.2 (Nat.le_of_lt (h p List.mem_cons_self))
    simp [Chain.insert, hp]

/-- The parts `Split(k)` cuts off are at or below `k`. -/
theorem le_of_mem_split {logs : LogParts} (hd : LogReader.Descending logs) (k : Nat) :
    ∀ p ∈ (Chain.split Prod.fst partComparator k logs).2, p.1 ≤ k := by
  rw [Chain.split, isAfter_partComparator]
  induction logs with
  | nil => simp
  | cons q rest ih =>
    rw [LogReader.Descending, List.pairwise_cons] at hd
    intro p hp
    by_cases hq : k < q.1
    · rw [List.dropWhile_cons_of_pos (by simpa using hq)] at hp
      exact ih hd.2 p hp
    · -- the cut begins at `q`; every later part is below it
      rw [List.dropWhile_cons_of_neg (by simpa using hq)] at hp
      rcases List.mem_cons.1 hp with rfl | hp
      · omega
      · have := hd.1 p hp
        omega

/-- A part missing from the parts above `k` is at or below `k`. -/
theorem le_of_not_mem_above {logs : LogParts} (hd : LogReader.Descending logs) {k j : Nat}
    (hj : j ∈ logs.map Prod.fst) (hn : j ∉ (LogReader.above k logs).map Prod.fst) : j ≤ k := by
  obtain ⟨p, hp, rfl⟩ := List.mem_map.1 hj
  by_contra hk
  exact hn (List.mem_map.2 ⟨p, LogReader.mem_above hd hp (by omega), rfl⟩)

theorem map_fst_setFile (i : Nat) (bytes : List UInt8) (files : List (Nat × List UInt8)) :
    (setFile i bytes files).map Prod.fst = files.map Prod.fst := by
  unfold setFile
  rw [List.map_map]
  congr 1
  funext f
  simp only [Function.comp]
  split <;> simp_all

/-- Dropping files of other indexes leaves the file of `i`. -/
theorem lookup_filter {files : List (Nat × List UInt8)} {q : Nat × List UInt8 → Bool} {i : Nat}
    (hq : ∀ f ∈ files, f.1 = i → q f = true) : (files.filter q).lookup i = files.lookup i := by
  induction files with
  | nil => rfl
  | cons f rest ih =>
    obtain ⟨j, v⟩ := f
    have ih' := ih fun g hg => hq g (List.mem_cons_of_mem _ hg)
    by_cases hji : j = i
    · subst hji
      rw [List.filter_cons_of_pos (hq _ List.mem_cons_self rfl)]
      simp [List.lookup]
    · -- another index: the lookup passes it whether it stays or not
      have hb : (i == j) = false := beq_eq_false_iff_ne.2 (Ne.symm hji)
      by_cases hqf : q (j, v) = true
      · rw [List.filter_cons_of_pos hqf]
        simp [List.lookup, hb, ih']
      · rw [List.filter_cons_of_neg hqf, ih']
        simp [List.lookup, hb]

/-- The smallest of the loop of `DeleteBinlog` is at most where it starts and
at most every node's `GetLogIndex()`. -/
theorem foldl_min_le (f : LogReader → Int) :
    ∀ (ns : List LogReader) (m : Int),
      ns.foldl (fun m lr => if f lr < m then f lr else m) m ≤ m ∧
        ∀ lr ∈ ns, ns.foldl (fun m lr => if f lr < m then f lr else m) m ≤ f lr
  | [], m => ⟨le_refl m, fun _ h => absurd h List.not_mem_nil⟩
  | lr :: ns, m => by
    obtain ⟨h1, h2⟩ := foldl_min_le f ns (if f lr < m then f lr else m)
    rw [List.foldl_cons]
    refine ⟨h1.trans ?_, fun lr' hlr' => ?_⟩
    · split <;> omega
    · rcases List.mem_cons.1 hlr' with rfl | h
      · exact h1.trans (by split <;> omega)
      · exact h2 lr' h

theorem minLogIndex_lt (st : LogReplicator) :
    minLogIndex st < st.snapshotLogPartIndex ∧ ∀ lr ∈ st.nodes, minLogIndex st < lr.getLogIndex := by
  obtain ⟨h1, h2⟩ := foldl_min_le LogReader.getLogIndex st.nodes st.snapshotLogPartIndex
  unfold minLogIndex
  exact ⟨by omega, fun lr hlr => by have := h2 lr hlr; omega⟩

/-- `min_log_index` is below the part of every node's reader. -/
theorem minLogIndex_lt_part {st : LogReplicator} {lr : LogReader} (hlr : lr ∈ st.nodes) {L : Nat} {r : Reader}
    (hp : lr.part = some (L, r)) : minLogIndex st < L := by
  have h := (minLogIndex_lt st).2 lr hlr
  simp only [LogReader.getLogIndex, hp] at h
  exact h

/-- A node whose reader has opened no part leaves `min_log_index` negative. -/
theorem minLogIndex_neg_of_part_none {st : LogReplicator} {lr : LogReader} (hlr : lr ∈ st.nodes)
    (hp : lr.part = none) : minLogIndex st < 0 := by
  have h := (minLogIndex_lt st).2 lr hlr
  simp only [LogReader.getLogIndex, hp] at h
  omega

/-! ## What a run keeps -/

variable (env : Env)

/-- What a run of the binlog keeps, with `es` the entries it wrote, as (log
index, part): the parts in `DefaultComparator` order, each opened before the
next index and at an offset reached; an entry after the start offset of every
part up to its own and at or before that of every later one; the snapshot's
part one that starts at or before its offset; the part of every node's reader
one of the parts; and, while every `unlink` succeeds, a file for each part
and none else. -/
structure Inv (es : List (Nat × Nat)) (st : LogReplicator) : Prop where
  descending : LogReader.Descending st.logs
  parts : ∀ p ∈ st.logs, p.1 < st.binlogIndex ∧ p.2 ≤ st.logOffset
  writer : st.wh.isSome → 0 < st.binlogIndex
  written : ∀ e ∈ es, e.2 < st.binlogIndex ∧ e.1 ≤ st.logOffset
  before : ∀ e ∈ es, ∀ p ∈ st.logs, e.2 < p.1 → e.1 ≤ p.2
  after : ∀ e ∈ es, ∀ p ∈ st.logs, p.1 ≤ e.2 → p.2 < e.1
  snapshot : ∀ p : Nat, st.snapshotLogPartIndex = p → ∃ s, (p, s) ∈ st.logs ∧ s ≤ st.snapshotLastOffset
  nodes : ∀ lr ∈ st.nodes, ∀ L r, lr.part = some (L, r) → L ∈ st.logs.map Prod.fst
  files : (∀ j, env.unlinkOk j = true) → st.files.map Prod.fst = st.logs.map Prod.fst

theorem inv_new {nodes : List LogReader} (h : ∀ lr ∈ nodes, lr.part = none) : Inv env [] (new nodes) where
  descending := List.Pairwise.nil
  parts _ hp := absurd hp List.not_mem_nil
  writer hw := by cases hw
  written _ he := absurd he List.not_mem_nil
  before _ he := absurd he List.not_mem_nil
  after _ he := absurd he List.not_mem_nil
  snapshot p hp := by
    simp only [new] at hp
    omega
  nodes lr hlr L r hp := by
    rw [h lr hlr] at hp
    cases hp
  files _ := rfl

/-! ## Each operation keeps `Inv` -/

variable {env} {es : List (Nat × Nat)} {st : LogReplicator}

/-- Every part is below `2^32` while `binlog_index_` has not passed it. -/
theorem Inv.bound (h : Inv env es st) (hb : st.binlogIndex ≤ 2 ^ 32) : ∀ i ∈ st.logs.map Prod.fst, i < 2 ^ 32 := by
  intro i hi
  obtain ⟨p, hp, rfl⟩ := List.mem_map.1 hi
  have := (h.parts p hp).1
  omega

/-- `RollWLogFile` opens the part `binlog_index_` above every part, at the
offset reached, after every entry written. -/
theorem Inv.rollWLogFile (h : Inv env es st) : Inv env es (rollWLogFile env st) := by
  have hlogs : (LogReplicator.rollWLogFile env st).logs = (st.binlogIndex, st.logOffset) :: st.logs :=
    insert_parts (fun p hp => (h.parts p hp).1) st.logOffset
  have hfiles : (LogReplicator.rollWLogFile env st).files.map Prod.fst =
      st.binlogIndex :: st.files.map Prod.fst := by
    unfold LogReplicator.rollWLogFile
    dsimp only
    split <;> simp [map_fst_setFile]
  have hidx : (LogReplicator.rollWLogFile env st).binlogIndex = st.binlogIndex + 1 := rfl
  refine ⟨?_, ?_, fun _ => by omega, ?_, ?_, ?_, ?_, ?_, ?_⟩
  · rw [hlogs]
    exact List.Pairwise.cons (fun p hp => (h.parts p hp).1) h.descending
  · rw [hlogs, hidx]
    intro p hp
    rcases List.mem_cons.1 hp with rfl | hp
    · exact ⟨Nat.lt_succ_self _, Nat.le_refl _⟩
    · exact ⟨Nat.lt_succ_of_lt (h.parts p hp).1, (h.parts p hp).2⟩
  · intro e he
    rw [hidx]
    exact ⟨Nat.lt_succ_of_lt (h.written e he).1, (h.written e he).2⟩
  · -- the new part starts at the offset reached, after every entry written
    rw [hlogs]
    intro e he p hp hlt
    rcases List.mem_cons.1 hp with rfl | hp
    · exact (h.written e he).2
    · exact h.before e he p hp hlt
  · rw [hlogs]
    intro e he p hp hle
    rcases List.mem_cons.1 hp with rfl | hp
    · exact absurd hle (Nat.not_le.2 (h.written e he).1)
    · exact h.after e he p hp hle
  · intro p hp
    obtain ⟨s, hs, hso⟩ := h.snapshot p hp
    rw [hlogs]
    exact ⟨s, List.mem_cons_of_mem _ hs, hso⟩
  · intro lr hlr L r hp
    rw [hlogs, List.map_cons]
    exact List.mem_cons_of_mem _ (h.nodes lr hlr L r hp)
  · intro hok
    rw [hfiles, hlogs, List.map_cons, h.files hok]

/-- A write to the part being written changes its file and the writer. -/
theorem Inv.write (h : Inv env es st) (w : Writer) (bytes : List UInt8) (hb : 0 < st.binlogIndex) :
    Inv env es { st with wh := some w, files := setFile (st.binlogIndex - 1) bytes st.files } where
  descending := h.descending
  parts := h.parts
  writer _ := hb
  written := h.written
  before := h.before
  after := h.after
  snapshot := h.snapshot
  nodes := h.nodes
  files hok := by
    rw [map_fst_setFile]
    exact h.files hok

/-- An entry counted has the next log index and is in the part being
written, the last one opened. -/
theorem Inv.count (h : Inv env es st) (hb : 0 < st.binlogIndex) :
    Inv env (es ++ [(st.logOffset + 1, st.binlogIndex - 1)]) { st with logOffset := st.logOffset + 1 } := by
  refine ⟨h.descending, fun p hp => ⟨(h.parts p hp).1, Nat.le_succ_of_le (h.parts p hp).2⟩, h.writer,
    ?_, ?_, ?_, h.snapshot, h.nodes, h.files⟩
  · intro e he
    rcases List.mem_append.1 he with he | he
    · exact ⟨(h.written e he).1, Nat.le_succ_of_le (h.written e he).2⟩
    · rw [List.mem_singleton.1 he]
      exact ⟨show st.binlogIndex - 1 < st.binlogIndex by omega, Nat.le_refl _⟩
  · -- no part comes after the one being written
    intro e he p hp hlt
    rcases List.mem_append.1 he with he | he
    · exact h.before e he p hp hlt
    · rw [List.mem_singleton.1 he] at hlt
      have := (h.parts p hp).1
      omega
  · intro e he p hp hle
    rcases List.mem_append.1 he with he | he
    · exact h.after e he p hp hle
    · rw [List.mem_singleton.1 he]
      exact Nat.lt_succ_of_le (h.parts p hp).2

theorem Inv.appendEntry (h : Inv env es st) (entry : List UInt8) :
    Inv env (es ++ if (appendEntry env entry st).2 then
        [((appendEntry env entry st).1.logOffset, (appendEntry env entry st).1.binlogIndex - 1)] else [])
      (appendEntry env entry st).1 := by
  have h1 : Inv env es (if needsRoll env st then LogReplicator.rollWLogFile env st else st) := by
    split
    · exact h.rollWLogFile
    · exact h
  unfold LogReplicator.appendEntry
  generalize (if needsRoll env st then LogReplicator.rollWLogFile env st else st) = st1 at h1 ⊢
  dsimp only
  rcases Option.eq_none_or_eq_some st1.wh with hw | ⟨w, hw⟩
  · -- a roll leaves a writer
    simp only [hw, Bool.false_eq_true, if_false, List.append_nil]
    exact h1
  · have hb : 0 < st1.binlogIndex := h1.writer (by rw [hw]; rfl)
    have h2 := h1.write (Writer.addRecord env.table0 env.compress w (env.serialize (st1.logOffset + 1) entry)).1
      (Writer.addRecord env.table0 env.compress w (env.serialize (st1.logOffset + 1) entry)).1.dest hb
    simp only [hw]
    split
    · -- the write succeeded: the entry is counted
      simp only [if_true]
      exact h2.count hb
    · simp only [Bool.false_eq_true, if_false, List.append_nil]
      exact h2

/-- The snapshot's part is the part a reader from its offset opens first, one
that starts at or before the offset. -/
theorem Inv.setSnapshotLogPartIndex (h : Inv env es st) (hb : st.binlogIndex ≤ 2 ^ 32) (offset : Nat) :
    Inv env es (setSnapshotLogPartIndex env offset st) := by
  have hbound : ∀ i ∈ ((LogReader.new st.logs st.files false).setOffset offset).logs.map Prod.fst,
      i < 2 ^ 32 :=
    h.bound hb
  refine ⟨h.descending, h.parts, h.writer, h.written, h.before, h.after, ?_, h.nodes, h.files⟩
  intro p hp
  simp only [LogReplicator.setSnapshotLogPartIndex] at hp ⊢
  rcases LogReader.rollRLogFile_opens env.binlogEnableCrc hbound with hr | ⟨m, file, hm, hr⟩
  · -- no part opened: the index is `-1`
    rw [hr] at hp
    simp [LogReader.getLogIndex, LogReader.setOffset, LogReader.new] at hp
  · rw [hr] at hp
    simp only [LogReader.getLogIndex, LogReader.openPart, Nat.cast_inj] at hp
    subst hp
    -- with no part open the walk is the first one
    have hfirst : LogReader.firstPartLoop offset st.logs = some m := hm
    obtain ⟨v, hv, hvo⟩ := LogReader.firstPartLoop_mem hfirst
    exact ⟨v, hv, hvo⟩

/-- `DeleteBinlog` when it cuts: the parts above `min_log_index` stay, and
the files of the others that unlink go. -/
theorem deleteBinlog_eq (h1 : ¬ st.logs.length ≤ 1) (h2 : ¬ minLogIndex st < 0) :
    deleteBinlog env st = { st with
      logs := LogReader.above (minLogIndex st).toNat st.logs
      files := st.files.filter fun f => !((Chain.split Prod.fst partComparator (minLogIndex st).toNat
        st.logs).2.any fun p => p.1 == f.1 && env.unlinkOk p.1) } := by
  unfold LogReplicator.deleteBinlog
  dsimp only
  rw [if_neg h1, if_neg h2, split_parts]

/-- With every `unlink` succeeding, the files left are those of the parts
above the cut. -/
theorem map_fst_filter_split {logs : LogParts} {files : List (Nat × List UInt8)} (hd : LogReader.Descending logs)
    (hf : files.map Prod.fst = logs.map Prod.fst) (k : Nat) {ok : Nat → Bool} (hok : ∀ j, ok j = true) :
    (files.filter fun f => !((Chain.split Prod.fst partComparator k logs).2.any fun p => p.1 == f.1 && ok p.1)).map
      Prod.fst = (LogReader.above k logs).map Prod.fst := by
  have hcut := le_of_mem_split hd k
  have happ : LogReader.above k logs ++ (Chain.split Prod.fst partComparator k logs).2 = logs := by
    rw [← split_parts]
    exact (Chain.split_isCut Prod.fst partComparator k logs).append_eq
  -- the parts above the cut stay, the parts cut off go
  have hkeep : ((LogReader.above k logs).map Prod.fst).filter (fun i =>
      !((Chain.split Prod.fst partComparator k logs).2.any fun p => p.1 == i && ok p.1)) =
      (LogReader.above k logs).map Prod.fst := by
    refine List.filter_eq_self.2 fun i hi => ?_
    obtain ⟨q, hq, rfl⟩ := List.mem_map.1 hi
    have hkq : k < q.1 := by
      simpa [LogReader.above] using List.mem_takeWhile_imp hq
    simp only [Bool.not_eq_eq_eq_not, Bool.not_true, List.any_eq_false, Bool.and_eq_true, beq_iff_eq]
    intro p hp hpq
    have := hcut p hp
    omega
  have hdrop : (((Chain.split Prod.fst partComparator k logs).2).map Prod.fst).filter (fun i =>
      !((Chain.split Prod.fst partComparator k logs).2.any fun p => p.1 == i && ok p.1)) = [] := by
    refine List.filter_eq_nil_iff.2 fun i hi => ?_
    obtain ⟨q, hq, rfl⟩ := List.mem_map.1 hi
    simp only [Bool.not_eq_eq_eq_not, Bool.not_true, Bool.not_eq_false, List.any_eq_true, Bool.and_eq_true,
      beq_iff_eq]
    exact ⟨q, hq, rfl, hok q.1⟩
  calc (files.filter fun f => !((Chain.split Prod.fst partComparator k logs).2.any fun p =>
          p.1 == f.1 && ok p.1)).map Prod.fst
      = (logs.map Prod.fst).filter (fun i =>
          !((Chain.split Prod.fst partComparator k logs).2.any fun p => p.1 == i && ok p.1)) := by
        rw [← hf, List.filter_map]
        rfl
    _ = ((LogReader.above k logs ++ (Chain.split Prod.fst partComparator k logs).2).map Prod.fst).filter
          (fun i => !((Chain.split Prod.fst partComparator k logs).2.any fun p => p.1 == i && ok p.1)) := by
        rw [happ]
    _ = (LogReader.above k logs).map Prod.fst := by
        rw [List.map_append, List.filter_append, hkeep, hdrop, List.append_nil]

theorem Inv.deleteBinlog (h : Inv env es st) : Inv env es (deleteBinlog env st) := by
  by_cases h1 : st.logs.length ≤ 1
  · rw [LogReplicator.deleteBinlog, if_pos h1]
    exact h
  by_cases h2 : minLogIndex st < 0
  · rw [LogReplicator.deleteBinlog, if_neg h1, if_pos h2]
    exact h
  rw [deleteBinlog_eq h1 h2]
  have hsnap := (minLogIndex_lt st).1
  have hsub : ∀ p ∈ LogReader.above (minLogIndex st).toNat st.logs, p ∈ st.logs :=
    fun p hp => (List.takeWhile_sublist _).subset hp
  -- a part above `min_log_index` stays
  have hstay : ∀ p ∈ st.logs, minLogIndex st < p.1 → p ∈ LogReader.above (minLogIndex st).toNat st.logs :=
    fun p hp hlt => LogReader.mem_above h.descending hp (by omega)
  refine ⟨h.descending.sublist (List.takeWhile_sublist _), fun p hp => h.parts p (hsub p hp), h.writer,
    h.written, fun e he p hp => h.before e he p (hsub p hp), fun e he p hp => h.after e he p (hsub p hp),
    ?_, ?_, ?_⟩
  · intro p hp
    obtain ⟨s, hs, hso⟩ := h.snapshot p hp
    exact ⟨s, hstay _ hs (by rw [← hp]; exact hsnap), hso⟩
  · intro lr hlr L r hp
    obtain ⟨⟨L', s⟩, hL, hLL⟩ := List.mem_map.1 (h.nodes lr hlr L r hp)
    have hkL := minLogIndex_lt_part hlr hp
    subst hLL
    exact List.mem_map.2 ⟨_, hstay _ hL hkL, rfl⟩
  · intro hok
    exact map_fst_filter_split h.descending (h.files hok) _ hok

/-- A node's read that returns: the reader of node `i` read once over the
replicator's parts, and put back. -/
theorem nodeRead_eq_some {i fuel : Nat} {st' : LogReplicator} (hs : nodeRead env i fuel st = some st') :
    ∃ lr v, st.nodes[i]? = some lr ∧
      LogReader.readNextRecord env.binlogEnableCrc env.table0 env.uncompress fuel (view st lr) = some v ∧
      st' = { st with nodes := st.nodes.set i v.1 } := by
  unfold LogReplicator.nodeRead at hs
  cases hi : st.nodes[i]? with
  | none =>
    rw [hi] at hs
    cases hs
  | some lr =>
    rw [hi] at hs
    obtain ⟨v, hv, rfl⟩ := Option.map_eq_some_iff.1 hs
    exact ⟨lr, v, rfl, hv, rfl⟩

/-- A node's read keeps its reader at one of the parts. -/
theorem Inv.nodeRead (h : Inv env es st) (hb : st.binlogIndex ≤ 2 ^ 32) {i fuel : Nat} {st' : LogReplicator}
    (hs : nodeRead env i fuel st = some st') : Inv env es st' := by
  obtain ⟨lr, v, hi, hv, rfl⟩ := nodeRead_eq_some hs
  have hP : (view st lr).logs = st.logs ∧
      ∀ L r, (view st lr).part = some (L, r) → L ∈ st.logs.map Prod.fst :=
    ⟨rfl, h.nodes lr (List.mem_of_getElem? hi)⟩
  -- every roll and read keeps the reader's part among the parts
  have hread := LogReader.readNextRecord_preserves env.binlogEnableCrc env.table0 env.uncompress
    (fun lr' => lr'.logs = st.logs ∧ ∀ L r, lr'.part = some (L, r) → L ∈ st.logs.map Prod.fst)
    (fun lr' ⟨hl, hp⟩ => by
      have hbound : ∀ j ∈ lr'.logs.map Prod.fst, j < 2 ^ 32 := by
        rw [hl]
        exact h.bound hb
      rcases LogReader.rollRLogFile_opens env.binlogEnableCrc hbound with hr | ⟨m, file, hm, hr⟩
      · rw [hr]
        exact ⟨hl, hp⟩
      · rw [hr]
        refine ⟨hl, fun L r hL => ?_⟩
        simp only [LogReader.openPart, Option.some.injEq, Prod.mk.injEq] at hL
        rw [← hL.1, ← hl]
        exact LogReader.partToOpen_mem hm)
    (fun lr' j r r' ⟨hl, hp⟩ hpj => ⟨hl, fun L r'' hL => by
      simp only [Option.some.injEq, Prod.mk.injEq] at hL
      rw [← hL.1]
      exact hp j r hpj⟩)
    hP fuel v hv
  refine ⟨h.descending, h.parts, h.writer, h.written, h.before, h.after, h.snapshot, ?_, h.files⟩
  intro lr' hlr' L r hp
  rcases List.mem_or_eq_of_mem_set hlr' with hlr' | rfl
  · exact h.nodes lr' hlr' L r hp
  · exact hread.2 L r hp

/-- No operation closes a part: `binlog_index_` only grows. -/
theorem step_binlogIndex_le {op : Op} {st' : LogReplicator} {w : List (Nat × Nat)}
    (hs : step env st op = some (st', w)) : st.binlogIndex ≤ st'.binlogIndex := by
  cases op with
  | appendEntry entry =>
    simp only [step, Option.some.injEq, Prod.mk.injEq] at hs
    rw [← hs.1]
    unfold LogReplicator.appendEntry
    have h1 : st.binlogIndex ≤ (if needsRoll env st then LogReplicator.rollWLogFile env st else st).binlogIndex := by
      split
      · exact Nat.le_succ _
      · exact Nat.le_refl _
    generalize (if needsRoll env st then LogReplicator.rollWLogFile env st else st) = st1 at h1 ⊢
    dsimp only
    split
    · exact h1
    · split <;> exact h1
  | rollWLogFile =>
    simp only [step, Option.some.injEq, Prod.mk.injEq] at hs
    rw [← hs.1]
    exact Nat.le_succ _
  | setSnapshotLogPartIndex offset =>
    simp only [step, Option.some.injEq, Prod.mk.injEq] at hs
    rw [← hs.1]
    exact Nat.le_refl _
  | deleteBinlog =>
    simp only [step, Option.some.injEq, Prod.mk.injEq] at hs
    rw [← hs.1]
    unfold LogReplicator.deleteBinlog
    split_ifs <;> exact Nat.le_refl _
  | nodeRead i fuel =>
    simp only [step] at hs
    obtain ⟨st1, hst1, hst⟩ := Option.map_eq_some_iff.1 hs
    simp only [Prod.mk.injEq] at hst
    rw [← hst.1]
    obtain ⟨lr, v, -, -, rfl⟩ := nodeRead_eq_some hst1
    exact Nat.le_refl _

/-- One operation keeps `Inv`, while fewer than `2^32` parts are opened. -/
theorem Inv.step (h : Inv env es st) {op : Op} {st' : LogReplicator} {w : List (Nat × Nat)}
    (hs : step env st op = some (st', w)) (hb : st'.binlogIndex ≤ 2 ^ 32) : Inv env (es ++ w) st' := by
  have hb' := (step_binlogIndex_le hs).trans hb
  cases op with
  | appendEntry entry =>
    simp only [LogReplicator.step, Option.some.injEq, Prod.mk.injEq] at hs
    obtain ⟨rfl, rfl⟩ := hs
    exact h.appendEntry entry
  | rollWLogFile =>
    simp only [LogReplicator.step, Option.some.injEq, Prod.mk.injEq] at hs
    obtain ⟨rfl, rfl⟩ := hs
    rw [List.append_nil]
    exact h.rollWLogFile
  | setSnapshotLogPartIndex offset =>
    simp only [LogReplicator.step, Option.some.injEq, Prod.mk.injEq] at hs
    obtain ⟨rfl, rfl⟩ := hs
    rw [List.append_nil]
    exact h.setSnapshotLogPartIndex hb' offset
  | deleteBinlog =>
    simp only [LogReplicator.step, Option.some.injEq, Prod.mk.injEq] at hs
    obtain ⟨rfl, rfl⟩ := hs
    rw [List.append_nil]
    exact h.deleteBinlog
  | nodeRead i fuel =>
    simp only [LogReplicator.step] at hs
    obtain ⟨st1, hst1, hst⟩ := Option.map_eq_some_iff.1 hs
    simp only [Prod.mk.injEq] at hst
    obtain ⟨rfl, rfl⟩ := hst
    rw [List.append_nil]
    exact h.nodeRead hb' hst1

/-- Every state a run reaches with fewer than `2^32` parts opened keeps
`Inv`: `binlog_index_` is a `uint32_t`. -/
theorem reachable_inv (h : Reachable env es st) (hb : st.binlogIndex ≤ 2 ^ 32) : Inv env es st := by
  induction h with
  | new nodes hn => exact inv_new env hn
  | step op _ hs ih => exact (ih ((step_binlogIndex_le hs).trans hb)).step hs hb

/-! ## What `DeleteBinlog` keeps -/

variable (env) in
/-- What `DeleteBinlog()` keeps of the binlog the run `es` wrote: a part it
drops holds only entries at or before the snapshot's offset and before every
entry a node's reader has still to read; a new reader from the snapshot's
offset and the reader of every node read the same after it as before; and
with every `unlink` succeeding the files left are the parts left. -/
structure KeepsNeeded (es : List (Nat × Nat)) (st : LogReplicator) : Prop where
  dropped : ∀ x j, (x, j) ∈ es → j ∈ st.logs.map Prod.fst → j ∉ (deleteBinlog env st).logs.map Prod.fst →
    x ≤ st.snapshotLastOffset ∧
      ∀ lr ∈ st.nodes, ∀ L r, lr.part = some (L, r) → ∀ y i, (y, i) ∈ es → L ≤ i → x < y
  recover : ∀ fuel n,
    LogReader.readMany env.binlogEnableCrc env.table0 env.uncompress fuel n
        ((LogReader.new (deleteBinlog env st).logs (deleteBinlog env st).files false).setOffset
          st.snapshotLastOffset) =
      LogReader.readMany env.binlogEnableCrc env.table0 env.uncompress fuel n
        ((LogReader.new st.logs st.files false).setOffset st.snapshotLastOffset)
  nodes : ∀ lr ∈ st.nodes, ∀ fuel n,
    LogReader.readMany env.binlogEnableCrc env.table0 env.uncompress fuel n (view (deleteBinlog env st) lr) =
      LogReader.readMany env.binlogEnableCrc env.table0 env.uncompress fuel n (view st lr)
  files : (∀ j, env.unlinkOk j = true) →
    (deleteBinlog env st).files.map Prod.fst = (deleteBinlog env st).logs.map Prod.fst

/-- The files a cut at `k` leaves hold every part above `k` as before. -/
theorem lookup_filter_split {logs : LogParts} (hd : LogReader.Descending logs) (k : Nat)
    (files : List (Nat × List UInt8)) (ok : Nat → Bool) {i : Nat} (hi : k < i) :
    (files.filter fun f => !((Chain.split Prod.fst partComparator k logs).2.any fun p =>
      p.1 == f.1 && ok p.1)).lookup i = files.lookup i := by
  refine lookup_filter fun f _ hf => ?_
  simp only [Bool.not_eq_eq_eq_not, Bool.not_true, List.any_eq_false, Bool.and_eq_true, beq_iff_eq]
  intro p hp hpf
  have := le_of_mem_split hd k p hp
  omega

section Cut

/-! The cut `DeleteBinlog` makes, at `k = min_log_index` not negative. -/

variable {files : List (Nat × List UInt8)}

/-- The snapshot's part: one of the parts, above the cut, and starting at or
before the snapshot's offset. -/
theorem Inv.snapshot_part (h : Inv env es st) (h2 : ¬ minLogIndex st < 0) :
    ∃ ps s, (ps, s) ∈ st.logs ∧ s ≤ st.snapshotLastOffset ∧ minLogIndex st < ps := by
  have hsnap := (minLogIndex_lt st).1
  obtain ⟨s, hs, hso⟩ := h.snapshot st.snapshotLogPartIndex.toNat (by omega)
  exact ⟨_, s, hs, hso, by omega⟩

/-- An entry of a part at or below the cut is at or before the snapshot's
offset, and before every entry of a part at or after a node's. -/
theorem Inv.needed (h : Inv env es st) (h2 : ¬ minLogIndex st < 0) {x j : Nat} (he : (x, j) ∈ es)
    (hj : j ≤ (minLogIndex st).toNat) :
    x ≤ st.snapshotLastOffset ∧
      ∀ lr ∈ st.nodes, ∀ L r, lr.part = some (L, r) → ∀ y i, (y, i) ∈ es → L ≤ i → x < y := by
  refine ⟨?_, fun lr hlr L r hp y i hy hLi => ?_⟩
  · -- the snapshot's part is above the cut, so the entry is before its start
    obtain ⟨ps, s, hs, hso, hk⟩ := h.snapshot_part h2
    exact (h.before _ he _ hs (by dsimp only; omega)).trans hso
  · -- the node's part `L` is above the cut: the entry is at or before its
    -- start, and every entry of a part from `L` on after it
    obtain ⟨⟨L', s⟩, hL, hLL⟩ := List.mem_map.1 (h.nodes lr hlr L r hp)
    have hkL := minLogIndex_lt_part hlr hp
    dsimp only at hLL
    subst hLL
    calc x ≤ s := h.before _ he _ hL (by dsimp only; omega)
      _ < y := h.after _ hy _ hL hLi

/-- A new reader from the snapshot's offset walks above the cut. -/
theorem Inv.window_snapshot (h : Inv env es st) (hb : st.binlogIndex ≤ 2 ^ 32) (h2 : ¬ minLogIndex st < 0)
    (hf : ∀ i, (minLogIndex st).toNat < i → files.lookup i = st.files.lookup i) :
    LogReader.Window (minLogIndex st).toNat files
      ((LogReader.new st.logs st.files false).setOffset st.snapshotLastOffset) where
  descending := h.descending
  bound := h.bound hb
  files := hf
  part _ _ hp := by cases hp
  first _ p hp := by
    -- its first part is the last that starts at or before the offset: at or
    -- above the snapshot's part
    obtain ⟨ps, s, hs, hso, hk⟩ := h.snapshot_part h2
    have hle := LogReader.firstPartLoop_max h.descending hp ps s hs hso
    omega

/-- The reader of a node is at a part above the cut. -/
theorem Inv.window_node (h : Inv env es st) (hb : st.binlogIndex ≤ 2 ^ 32) (h2 : ¬ minLogIndex st < 0)
    (hf : ∀ i, (minLogIndex st).toNat < i → files.lookup i = st.files.lookup i) {lr : LogReader}
    (hlr : lr ∈ st.nodes) : LogReader.Window (minLogIndex st).toNat files (view st lr) where
  descending := h.descending
  bound := h.bound hb
  files := hf
  part L r hp := ⟨h.nodes lr hlr L r hp, by have := minLogIndex_lt_part hlr hp; omega⟩
  -- a reader before its first roll has index `-1`, and then nothing is cut
  first hp := absurd (minLogIndex_neg_of_part_none hlr hp) h2

end Cut

/-- A binlog with no compression and no crc, one byte an entry, and every
`unlink` succeeding. -/
def plainEnv : Env := ⟨fun _ => 0, fun _ b => some b, fun _ b => some b, fun i _ => [UInt8.ofNat i], 1, false,
  fun _ => true⟩

/-- Two parts opened with no entry between them, a snapshot at offset `0`,
and the reader of a node advanced to the second part. -/
def twoRolls : LogReplicator :=
  let st := setSnapshotLogPartIndex plainEnv 0
    (rollWLogFile plainEnv (rollWLogFile plainEnv (new [LogReader.new [] [] false])))
  (nodeRead plainEnv 0 4 st).getD st

end LogReplicator

end Fedb.Replica
