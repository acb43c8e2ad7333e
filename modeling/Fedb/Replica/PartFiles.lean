import Fedb.Replica.LogReplicator
import Fedb.Log.RoundTrip

/-! # The part files a binlog writer leaves

A run of `AppendEntry` and `RollWLogFile` from a replicator over an empty
directory (`Written`) writes entries of log indexes `1, 2, …`, each to the
part being written. `Layout` says what the directory then holds: one file
per part `0, …, binlog_index_ - 1`, listed from the largest index, each the
bytes a `WriteHandle` of compression `"off"` wrote for the records of the
part's entries (`partWriter`), with the end record of `RollWLogFile` after
them in every part but the last, whose `WriteHandle` is `wh_`.
`Written.layout` proves `Layout` of every run, from what `RollWLogFile`
(`Layout.rollWLogFile`) and the write of `AppendEntry`
(`Layout.addRecord`) each keep.
-/

namespace Fedb.Replica

open Fedb.Log

namespace LogReplicator

variable (env : Env)

/-- The runs of `AppendEntry` and `RollWLogFile` from a replicator over an
empty directory, with the entries they write: log index, part and entry. -/
inductive Written : List (Nat × Nat × List UInt8) → LogReplicator → Prop
  | new : Written [] (LogReplicator.new [])
  | appendEntry {es : List (Nat × Nat × List UInt8)} {st : LogReplicator} (entry : List UInt8) :
    Written es st →
      Written (es ++ if (appendEntry env entry st).2 then
          [((appendEntry env entry st).1.logOffset, (appendEntry env entry st).1.binlogIndex - 1, entry)]
        else [])
        (appendEntry env entry st).1
  | rollWLogFile {es : List (Nat × Nat × List UInt8)} {st : LogReplicator} :
    Written es st → Written es (rollWLogFile env st)

/-! ## The entries and the file of a part -/

/-- The entries of part `k`, with their log indexes, in the order written. -/
def partEntries (es : List (Nat × Nat × List UInt8)) (k : Nat) : List (Nat × List UInt8) :=
  (es.filter fun e => e.2.1 = k).map fun e => (e.1, e.2.2)

/-- The records of entries: `SerializeToString` of each, with its log
index. -/
def entryRecords (E : List (Nat × List UInt8)) : List (List UInt8) := E.map fun e => env.serialize e.1 e.2

/-- The `WriteHandle` of compression `"off"` of a part, after the records of
its entries. -/
def partWriter (E : List (Nat × List UInt8)) : Writer :=
  (entryRecords env E).foldl (fun w record => (w.addRecord env.table0 env.compress record).1) (Writer.new "off")

/-- The file of part `k` of `p` parts: what its `WriteHandle` wrote, with
the end record of `RollWLogFile` after it in a part before the last. -/
def partFile (es : List (Nat × Nat × List UInt8)) (p k : Nat) : List UInt8 :=
  if k + 1 = p then (partWriter env (partEntries es k)).dest
  else (Writer.endLog env.table0 env.compress (partWriter env (partEntries es k))).1.dest

section Parts

variable {env}

theorem partEntries_append_single (es : List (Nat × Nat × List UInt8)) (x : Nat × Nat × List UInt8) (k : Nat) :
    partEntries (es ++ [x]) k = partEntries es k ++ if x.2.1 = k then [(x.1, x.2.2)] else [] := by
  unfold partEntries
  rw [List.filter_append, List.map_append]
  by_cases hx : x.2.1 = k <;> simp [hx]

/-- A part above every entry's has none. -/
theorem partEntries_of_lt {es : List (Nat × Nat × List UInt8)} {k : Nat} (h : ∀ e ∈ es, e.2.1 < k) :
    partEntries es k = [] := by
  unfold partEntries
  rw [List.map_eq_nil_iff, List.filter_eq_nil_iff]
  intro e he
  have := h e he
  simp only [decide_eq_true_eq]
  omega

theorem partWriter_nil : partWriter env [] = Writer.new "off" := rfl

theorem partWriter_append_single (E : List (Nat × List UInt8)) (i : Nat) (entry : List UInt8) :
    partWriter env (E ++ [(i, entry)]) =
      ((partWriter env E).addRecord env.table0 env.compress (env.serialize i entry)).1 := by
  unfold partWriter entryRecords
  rw [List.map_append, List.foldl_append]
  rfl

theorem partWriter_plain (E : List (Nat × List UInt8)) : (partWriter env E).Plain :=
  plain_foldl env.table0 env.compress _ (Writer.new_plain rfl)

/-- The directory with the file of part `i` set, as a list of parts. -/
theorem setFile_map (i : Nat) (bytes : List UInt8) (L : List Nat) (f : Nat → List UInt8) :
    setFile i bytes (L.map fun k => (k, f k)) = L.map fun k => (k, if k = i then bytes else f k) := by
  unfold setFile
  rw [List.map_map]
  apply List.map_congr_left
  intro k _
  by_cases hk : k = i
  · subst hk
    simp
  · simp [hk]

theorem flatMap_range_succ {β : Type} (f : Nat → List β) (p : Nat) :
    (List.range (p + 1)).flatMap f = (List.range p).flatMap f ++ f p := by
  rw [List.range_succ, List.flatMap_append, List.flatMap_singleton]

end Parts

/-! ## What the directory holds -/

/-- The directory and the writer after a run that wrote the entries `es`:
log indexes `1, 2, …` through the parts in order, and the file of each
part. -/
structure Layout (es : List (Nat × Nat × List UInt8)) (st : LogReplicator) : Prop where
  below : ∀ e ∈ es, e.2.1 < st.binlogIndex
  indexes : ((List.range st.binlogIndex).flatMap (partEntries es)).map Prod.fst = List.range' 1 es.length
  logOffset : st.logOffset = es.length
  files : st.files = (List.range st.binlogIndex).reverse.map fun k => (k, partFile env es st.binlogIndex k)
  wh : st.wh = if st.binlogIndex = 0 then none else some (partWriter env (partEntries es (st.binlogIndex - 1)))

theorem layout_new : Layout env [] (LogReplicator.new []) where
  below _ he := absurd he List.not_mem_nil
  indexes := rfl
  logOffset := rfl
  files := rfl
  wh := rfl

variable {env} {es : List (Nat × Nat × List UInt8)} {st : LogReplicator}

/-- `RollWLogFile` ends the file of the last part and opens an empty one
after it. -/
theorem Layout.rollWLogFile (h : Layout env es st) : Layout env es (rollWLogFile env st) := by
  have hidx : (LogReplicator.rollWLogFile env st).binlogIndex = st.binlogIndex + 1 := rfl
  have hnone : partEntries es st.binlogIndex = [] := partEntries_of_lt h.below
  refine ⟨fun e he => by rw [hidx]; exact Nat.lt_succ_of_lt (h.below e he), ?_, h.logOffset, ?_, ?_⟩
  · rw [hidx, flatMap_range_succ, hnone, List.append_nil]
    exact h.indexes
  · rw [hidx, List.range_succ, List.reverse_append, List.reverse_singleton, List.singleton_append, List.map_cons]
    have hnew : partFile env es (st.binlogIndex + 1) st.binlogIndex = [] := by
      rw [partFile, if_pos rfl, hnone, partWriter_nil]
      rfl
    unfold LogReplicator.rollWLogFile
    dsimp only
    rw [hnew]
    congr 1
    by_cases h0 : st.binlogIndex = 0
    · -- no part yet: no file to end
      have hw : st.wh = none := by rw [h.wh, if_pos h0]
      rw [hw, h.files, h0]
      rfl
    · -- the file of the last part gets its end record
      have hw : st.wh = some (partWriter env (partEntries es (st.binlogIndex - 1))) := by rw [h.wh, if_neg h0]
      rw [hw, h.files]
      dsimp only
      rw [setFile_map]
      apply List.map_congr_left
      intro k hk
      rw [List.mem_reverse, List.mem_range] at hk
      by_cases hk1 : k = st.binlogIndex - 1
      · subst hk1
        rw [if_pos rfl, partFile, if_neg (by omega)]
      · rw [if_neg hk1, partFile, partFile, if_neg (by omega), if_neg (by omega)]
  · show some (Writer.new "off") = _
    rw [hidx, if_neg (Nat.succ_ne_zero _), Nat.add_sub_cancel, hnone, partWriter_nil]

/-- The record of the entry `log_offset_ + 1` added to the part being
written. -/
theorem Layout.addRecord (h : Layout env es st) (h0 : st.binlogIndex ≠ 0) (entry : List UInt8) :
    Layout env (es ++ [(st.logOffset + 1, st.binlogIndex - 1, entry)])
      { st with
        wh := some ((partWriter env (partEntries es (st.binlogIndex - 1))).addRecord env.table0 env.compress
          (env.serialize (st.logOffset + 1) entry)).1
        files := setFile (st.binlogIndex - 1) ((partWriter env (partEntries es (st.binlogIndex - 1))).addRecord
          env.table0 env.compress (env.serialize (st.logOffset + 1) entry)).1.dest st.files
        logOffset := st.logOffset + 1 } := by
  obtain ⟨q, hq⟩ : ∃ q, st.binlogIndex = q + 1 := ⟨st.binlogIndex - 1, by omega⟩
  -- only the part `q` being written gets the entry
  have hpart : ∀ k, partEntries (es ++ [(st.logOffset + 1, q, entry)]) k =
      partEntries es k ++ if q = k then [(st.logOffset + 1, entry)] else [] :=
    partEntries_append_single es _
  have hother : ∀ k, k ≠ q → partEntries (es ++ [(st.logOffset + 1, q, entry)]) k = partEntries es k := by
    intro k hk
    rw [hpart, if_neg (Ne.symm hk), List.append_nil]
  have hlast : partWriter env (partEntries (es ++ [(st.logOffset + 1, q, entry)]) q) =
      ((partWriter env (partEntries es q)).addRecord env.table0 env.compress
        (env.serialize (st.logOffset + 1) entry)).1 := by
    rw [hpart, if_pos rfl, partWriter_append_single]
  simp only [hq, Nat.add_sub_cancel]
  refine ⟨?_, ?_, ?_, ?_, ?_⟩
  · intro e he
    rcases List.mem_append.mp he with he | he
    · exact hq ▸ h.below e he
    · rw [List.mem_singleton.mp he]
      exact Nat.lt_succ_self q
  · rw [flatMap_range_succ, hpart, if_pos rfl,
      List.flatMap_congr (fun k hk => hother k (Nat.ne_of_lt (List.mem_range.mp hk))),
      ← List.append_assoc, ← flatMap_range_succ, List.map_append, ← hq, h.indexes, List.length_append,
      List.length_singleton, List.range'_concat, h.logOffset]
    simp [Nat.add_comm]
  · rw [h.logOffset, List.length_append, List.length_singleton]
  · rw [h.files, hq, setFile_map]
    apply List.map_congr_left
    intro k hk
    rw [List.mem_reverse, List.mem_range] at hk
    by_cases hkq : k = q
    · subst hkq
      rw [if_pos rfl, partFile, if_pos rfl, hlast]
    · rw [if_neg hkq, partFile, partFile, hother k hkq]
  · rw [if_neg (Nat.succ_ne_zero q), Nat.add_sub_cancel, hlast]

/-- `AppendEntry` on the layout: the roll it may make, then the record,
which a writer of compression `"off"` always adds. -/
theorem Layout.appendEntry (h : Layout env es st) (entry : List UInt8) :
    (appendEntry env entry st).2 = true ∧
      Layout env (es ++ [((appendEntry env entry st).1.logOffset, (appendEntry env entry st).1.binlogIndex - 1, entry)])
        (appendEntry env entry st).1 := by
  set st1 := if needsRoll env st then LogReplicator.rollWLogFile env st else st with hst1
  have h1 : Layout env es st1 := by
    rw [hst1]
    split
    · exact h.rollWLogFile
    · exact h
  -- a part is being written: the roll opened one, or there was a writer
  have h0 : st1.binlogIndex ≠ 0 := by
    rw [hst1]
    split
    · exact Nat.succ_ne_zero _
    · rename_i hn
      intro hz
      have hw := h.wh
      rw [if_pos hz] at hw
      simp [needsRoll, hw] at hn
  have hw : st1.wh = some (partWriter env (partEntries es (st1.binlogIndex - 1))) := by rw [h1.wh, if_neg h0]
  have hok : ((partWriter env (partEntries es (st1.binlogIndex - 1))).addRecord env.table0 env.compress
      (env.serialize (st1.logOffset + 1) entry)).2 = .ok :=
    (Writer.addRecordLoop_plain env.table0 env.compress (partWriter_plain _) _ true).2
  have happ : LogReplicator.appendEntry env entry st =
      ({ st1 with
        wh := some ((partWriter env (partEntries es (st1.binlogIndex - 1))).addRecord env.table0 env.compress
          (env.serialize (st1.logOffset + 1) entry)).1
        files := setFile (st1.binlogIndex - 1) ((partWriter env (partEntries es (st1.binlogIndex - 1))).addRecord
          env.table0 env.compress (env.serialize (st1.logOffset + 1) entry)).1.dest st1.files
        logOffset := st1.logOffset + 1 }, true) := by
    unfold LogReplicator.appendEntry
    simp only [← hst1, hw, hok, if_true]
  rw [happ]
  exact ⟨rfl, h1.addRecord h0 entry⟩

/-- `AppendEntry` moves `binlog_index_` only by the roll it may make. -/
theorem appendEntry_binlogIndex (entry : List UInt8) (st : LogReplicator) :
    (LogReplicator.appendEntry env entry st).1.binlogIndex =
      (if needsRoll env st then LogReplicator.rollWLogFile env st else st).binlogIndex := by
  unfold LogReplicator.appendEntry
  dsimp only
  split
  · rfl
  · split_ifs <;> rfl

/-- Every run leaves the layout. -/
theorem Written.layout (h : Written env es st) : Layout env es st := by
  induction h with
  | new => exact layout_new env
  | appendEntry entry _ ih =>
    obtain ⟨hok, hl⟩ := ih.appendEntry entry
    rw [hok, if_pos rfl]
    exact hl
  | rollWLogFile _ ih => exact ih.rollWLogFile

end LogReplicator

end Fedb.Replica
