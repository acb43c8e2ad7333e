import Fedb.Replica.LogReplicator
import Fedb.Log.Truncated

/-! # `Binlog::RecoverFromBinlog`

`RecoverFromBinlog(table, offset, latest_offset)` (`src/storage/binlog.cc`)
replays the binlog of a table partition after its snapshot. A `LogReader`
over the parts, from the snapshot's offset, reads record after record; an
entry at or before the offset reached is skipped, any other goes to the
table's `Put`, or `Delete` for a delete, with a `SchedGc()` every
`FLAGS_gc_on_table_recover_count` entries. `WaitRecord` where a later part
exists rolls to it; `WaitRecord` otherwise ends the replay, and an end record
is then written where the last record read ends. `Eof` ends it when the
reader's part did not change.

The model reads a `LogEntry` through `EntryFormat`: `ParseFromString` and
the fields `RecoverFromBinlog` looks at. The table is the list of the calls
made on it, in order. The loop is given fuel, `none` where it runs out, as a
read of the reader is.
-/

namespace Fedb.Storage

open Fedb.Log Fedb.Replica

/-- What `RecoverFromBinlog` reads of a `LogEntry`. -/
structure EntryFormat where
  /-- `ParseFromString`: the entry's `log_index` and the entry, `none` where
  the bytes are not a `LogEntry`. -/
  parse : List UInt8 → Option (Nat × List UInt8)
  /-- `has_method_type() && method_type() == kDelete`. -/
  isDelete : List UInt8 → Bool
  /-- `dimensions(0)`, its `key()` and `idx()`; `none` where
  `dimensions_size() == 0`. -/
  firstDimension : List UInt8 → Option (List UInt8 × Nat)

/-- A call of `RecoverFromBinlog` on the table. -/
inductive TableCall
  | put (logIndex : Nat) (entry : List UInt8)
  | delete (key : List UInt8) (idx : Nat)
  | schedGc
  deriving Repr, DecidableEq

/-- The locals of the loop of `RecoverFromBinlog`, with the calls made on
the table so far. -/
structure Replay where
  reader : LogReader
  curOffset : Nat
  lastLogIndex : Int
  succCnt : Nat
  failedCnt : Nat
  calls : List TableCall
  deriving Repr, DecidableEq

namespace Binlog

variable (fmt : EntryFormat) (gcOnTableRecoverCount : Nat)

/-- The call on the table for the entry of `log_index` `logIndex`: `Delete`
of its first dimension for a delete, none for a delete without one, `Put`
otherwise. -/
def applyEntry (logIndex : Nat) (entry : List UInt8) : List TableCall :=
  if fmt.isDelete entry then
    match fmt.firstDimension entry with
    | none => []
    | some (key, idx) => [.delete key idx]
  else [.put logIndex entry]

/-- What the loop does with a record read: one that does not parse is
counted as failed, one at or before `cur_offset` is skipped, and any other
goes to the table and becomes `cur_offset`. -/
def replayRecord (s : Replay) (record : List UInt8) : Replay :=
  match fmt.parse record with
  | none => { s with failedCnt := s.failedCnt + 1 }
  | some (logIndex, entry) =>
    if s.curOffset ≥ logIndex then s
    else
      { s with
        curOffset := logIndex
        succCnt := s.succCnt + 1
        calls := s.calls ++ applyEntry fmt logIndex entry ++
          if (s.succCnt + 1) % gcOnTableRecoverCount = 0 then [.schedGc] else [] }

variable (checksum : Bool) (table0 : UInt8 → UInt32)
  (uncompress : CompressType → List UInt8 → Option (List UInt8))

/-- The loop of `RecoverFromBinlog`, `n` rounds at most, each read with
`fuel`: the locals at its end and `reach_end_log`. -/
def replayLoop (fuel : Nat) : Nat → Replay → Option (Replay × Bool)
  | 0, _ => none
  | n + 1, s =>
    match LogReader.readNextRecord checksum table0 uncompress fuel s.reader with
    | none => none
    | some (lr, status, record) =>
      let s := { s with reader := lr }
      if status = .waitRecord then
        -- a later part: roll to it
        if lr.getEndLogIndex ≥ 0 ∧ lr.getEndLogIndex > lr.getLogIndex then
          replayLoop fuel n { s with reader := (LogReader.rollRLogFile checksum lr).1 }
        else some (s, false)
      else if status = .eof then
        if lr.getLogIndex ≠ s.lastLogIndex then replayLoop fuel n { s with lastLogIndex := lr.getLogIndex }
        else some (s, true)
      else if status ≠ .ok then replayLoop fuel n { s with failedCnt := s.failedCnt + 1 }
      else replayLoop fuel n (replayRecord fmt gcOnTableRecoverCount s record)

variable (compress : CompressType → List UInt8 → Option (List UInt8))

/-- `WriteHandle("off", path, fd, pos).EndLog()` on a file opened `"rb+"`
and sought to `pos`: the end record of a writer whose block offset is
`pos`'s, written over the file from `pos` on. -/
def endLogAt (file : List UInt8) (pos : Nat) : List UInt8 :=
  let w := (Writer.endLog table0 compress { Writer.new "off" with blockOffset := pos % kBlockSize }).1
  file.take pos ++ w.dest ++ file.drop (pos + w.dest.length)

/-- `RecoverFromBinlog(table, offset, latest_offset)` over the parts `logs`
and the directory `files`: what it returns, `latest_offset`, the calls on
the table, and the directory after it. -/
def recoverFromBinlog (logs : LogParts) (files : List (Nat × List UInt8)) (offset fuel n : Nat) :
    Option (Bool × Nat × List TableCall × List (Nat × List UInt8)) :=
  let lr := (LogReader.new logs files false).setOffset offset
  (replayLoop fmt gcOnTableRecoverCount checksum table0 uncompress fuel n ⟨lr, offset, lr.getLogIndex, 0, 0, []⟩).map
    fun (s, reachEndLog) =>
      if reachEndLog then (true, s.curOffset, s.calls, files)
      else if s.reader.getLogIndex < 0 then (true, s.curOffset, s.calls, files)
      else
        -- the end record goes where the last record read ends
        let i := s.reader.getLogIndex.toNat
        match files.lookup i with
        | none => (false, s.curOffset, s.calls, files)
        | some file =>
          (true, s.curOffset, s.calls,
            LogReplicator.setFile i (endLogAt table0 compress file s.reader.getLastRecordEndOffset) files)

/-! ## The replay of entries -/

section Entries

variable {fmt gcOnTableRecoverCount}

/-- The calls on the table other than `SchedGc()`. -/
def dataCalls (calls : List TableCall) : List TableCall := calls.filter fun c => c ≠ .schedGc

theorem dataCalls_append (a b : List TableCall) : dataCalls (a ++ b) = dataCalls a ++ dataCalls b :=
  List.filter_append a b

theorem dataCalls_applyEntry (logIndex : Nat) (entry : List UInt8) :
    dataCalls (applyEntry fmt logIndex entry) = applyEntry fmt logIndex entry := by
  unfold applyEntry dataCalls
  split
  · split <;> simp
  · simp

theorem dataCalls_schedGc (c : Prop) [Decidable c] : dataCalls (if c then [TableCall.schedGc] else []) = [] := by
  split <;> rfl

/-- The replay of records that parse to entries of increasing log index:
the entries above the offset reached go to the table, in order and each
once, and the last of them becomes the offset. -/
theorem foldl_replayRecord_entries :
    ∀ (records : List (List UInt8)) (E : List (Nat × List UInt8)), records.map fmt.parse = E.map some →
      (E.map Prod.fst).Pairwise (· < ·) → ∀ s : Replay,
        dataCalls (records.foldl (replayRecord fmt gcOnTableRecoverCount) s).calls =
            dataCalls s.calls ++ (E.filter fun e => s.curOffset < e.1).flatMap (fun e => applyEntry fmt e.1 e.2) ∧
          (records.foldl (replayRecord fmt gcOnTableRecoverCount) s).curOffset =
            ((E.filter fun e => s.curOffset < e.1).map Prod.fst).foldl max s.curOffset
  | [], [], _, _, s => by simp
  | [], _ :: _, h, _, _ => by simp at h
  | _ :: _, [], h, _, _ => by simp at h
  | record :: records, (i, entry) :: E, h, hsort, s => by
    simp only [List.map_cons, List.cons.injEq] at h
    obtain ⟨hparse, h⟩ := h
    simp only [List.map_cons, List.pairwise_cons] at hsort
    obtain ⟨habove, hsort⟩ := hsort
    rw [List.foldl_cons]
    by_cases hi : s.curOffset < i
    · -- the entry goes to the table: every later one is above it
      have hlater : ∀ {c : Nat}, c ≤ i → (E.filter fun e => c < e.1) = E := by
        intro c hc
        rw [List.filter_eq_self]
        intro e he
        have := habove e.1 (List.mem_map_of_mem he)
        simp only [decide_eq_true_eq]
        omega
      have hs : replayRecord fmt gcOnTableRecoverCount s record =
          { s with
            curOffset := i
            succCnt := s.succCnt + 1
            calls := s.calls ++ applyEntry fmt i entry ++
              if (s.succCnt + 1) % gcOnTableRecoverCount = 0 then [.schedGc] else [] } := by
        simp only [replayRecord, hparse, if_neg (Nat.not_le.mpr hi)]
      obtain ⟨hcalls, hcur⟩ := foldl_replayRecord_entries records E h hsort
        (replayRecord fmt gcOnTableRecoverCount s record)
      rw [hs] at hcalls hcur ⊢
      dsimp only at hcalls hcur
      rw [hlater (Nat.le_refl i)] at hcalls hcur
      rw [List.filter_cons_of_pos (by simpa using hi), hlater (Nat.le_of_lt hi)]
      refine ⟨?_, ?_⟩
      · rw [hcalls, dataCalls_append, dataCalls_append, dataCalls_applyEntry, dataCalls_schedGc,
          List.append_nil, List.flatMap_cons, List.append_assoc]
      · rw [hcur, List.map_cons, List.foldl_cons, Nat.max_eq_right (Nat.le_of_lt hi)]
    · -- the entry is at or before the offset reached: skipped
      have hs : replayRecord fmt gcOnTableRecoverCount s record = s := by
        simp only [replayRecord, hparse, if_pos (Nat.le_of_not_lt hi)]
      rw [hs, List.filter_cons_of_neg (by simpa using hi)]
      exact foldl_replayRecord_entries records E h hsort s

end Entries

/-! ## The loop round by round -/

section Loop

variable {fmt gcOnTableRecoverCount checksum table0 uncompress} {fuel : Nat}

@[simp] theorem replayRecord_reader (s : Replay) (record : List UInt8) :
    (replayRecord fmt gcOnTableRecoverCount s record).reader = s.reader := by
  unfold replayRecord
  split
  · rfl
  · split <;> rfl

/-- The replay of a record does not look at the reader. -/
theorem replayRecord_with_reader (s : Replay) (lr : LogReader) (record : List UInt8) :
    replayRecord fmt gcOnTableRecoverCount { s with reader := lr } record =
      { replayRecord fmt gcOnTableRecoverCount s record with reader := lr } := by
  unfold replayRecord
  split
  · rfl
  · split <;> rfl

theorem foldl_replayRecord_with_reader (records : List (List UInt8)) :
    ∀ (s : Replay) (lr : LogReader),
      records.foldl (replayRecord fmt gcOnTableRecoverCount) { s with reader := lr } =
        { records.foldl (replayRecord fmt gcOnTableRecoverCount) s with reader := lr } := by
  induction records with
  | nil => intro s lr; rfl
  | cons record records ih =>
    intro s lr
    rw [List.foldl_cons, List.foldl_cons, replayRecord_with_reader, ih]

/-- A record read is replayed, and the loop goes on. -/
theorem replayLoop_ok {s : Replay} {lr : LogReader} {record : List UInt8}
    (h : LogReader.readNextRecord checksum table0 uncompress fuel s.reader = some (lr, .ok, record)) (n : Nat) :
    replayLoop fmt gcOnTableRecoverCount checksum table0 uncompress fuel (n + 1) s =
      replayLoop fmt gcOnTableRecoverCount checksum table0 uncompress fuel n
        (replayRecord fmt gcOnTableRecoverCount { s with reader := lr } record) := by
  simp [replayLoop, h]

/-- `Eof` from a reader that moved to another part: the loop goes on from
it. -/
theorem replayLoop_eof_next {s : Replay} {lr : LogReader} {record : List UInt8}
    (h : LogReader.readNextRecord checksum table0 uncompress fuel s.reader = some (lr, .eof, record))
    (hl : lr.getLogIndex ≠ s.lastLogIndex) (n : Nat) :
    replayLoop fmt gcOnTableRecoverCount checksum table0 uncompress fuel (n + 1) s =
      replayLoop fmt gcOnTableRecoverCount checksum table0 uncompress fuel n
        { s with reader := lr, lastLogIndex := lr.getLogIndex } := by
  simp [replayLoop, h, hl]

/-- `Eof` in the part already reached: the end of the log. -/
theorem replayLoop_eof_stop {s : Replay} {lr : LogReader} {record : List UInt8}
    (h : LogReader.readNextRecord checksum table0 uncompress fuel s.reader = some (lr, .eof, record))
    (hl : lr.getLogIndex = s.lastLogIndex) (n : Nat) :
    replayLoop fmt gcOnTableRecoverCount checksum table0 uncompress fuel (n + 1) s =
      some ({ s with reader := lr }, true) := by
  simp [replayLoop, h, hl]

/-- `WaitRecord` with no later part: the replay stops there. -/
theorem replayLoop_wait_stop {s : Replay} {lr : LogReader} {record : List UInt8}
    (h : LogReader.readNextRecord checksum table0 uncompress fuel s.reader = some (lr, .waitRecord, record))
    (he : ¬ (lr.getEndLogIndex ≥ 0 ∧ lr.getEndLogIndex > lr.getLogIndex)) (n : Nat) :
    replayLoop fmt gcOnTableRecoverCount checksum table0 uncompress fuel (n + 1) s =
      some ({ s with reader := lr }, false) := by
  simp only [replayLoop, h, if_true, if_neg he]

theorem replayRecord_with_position (s : Replay) (lr : LogReader) (l : Int) (record : List UInt8) :
    replayRecord fmt gcOnTableRecoverCount { s with reader := lr, lastLogIndex := l } record =
      { replayRecord fmt gcOnTableRecoverCount s record with reader := lr, lastLogIndex := l } := by
  unfold replayRecord
  split
  · rfl
  · split <;> rfl

theorem foldl_replayRecord_with_position (records : List (List UInt8)) :
    ∀ (s : Replay) (lr : LogReader) (l : Int),
      records.foldl (replayRecord fmt gcOnTableRecoverCount) { s with reader := lr, lastLogIndex := l } =
        { records.foldl (replayRecord fmt gcOnTableRecoverCount) s with reader := lr, lastLogIndex := l } := by
  induction records with
  | nil => intro s lr l; rfl
  | cons record records ih =>
    intro s lr l
    rw [List.foldl_cons, List.foldl_cons, replayRecord_with_position, ih]

/-- A read of the open part `j`, by its `Reader`. -/
theorem readNextRecord_of_part {lr : LogReader} {j : Nat} {r : Reader} (hp : lr.part = some (j, r)) :
    LogReader.readNextRecord checksum table0 uncompress fuel lr =
      LogReader.readPart checksum table0 uncompress fuel lr j r := by
  unfold LogReader.readNextRecord
  rw [hp]

/-- A read of the open part `j` that stops before its end. -/
theorem readNextRecord_with_part {lr : LogReader} {j : Nat} {r r' : Reader} {st : Status} {record : List UInt8}
    (h : Reader.readRecord table0 uncompress fuel r = some (r', st, record)) (hst : st ≠ .eof) :
    LogReader.readNextRecord checksum table0 uncompress fuel { lr with part := some (j, r) } =
      some ({ lr with part := some (j, r') }, st, record) := by
  rw [readNextRecord_of_part rfl]
  simp [LogReader.readPart, h, hst]

/-- A read of the open part `j` at its end: the reader rolls. -/
theorem readNextRecord_with_part_eof {lr : LogReader} {j : Nat} {r r' : Reader} {record : List UInt8}
    (h : Reader.readRecord table0 uncompress fuel r = some (r', .eof, record)) :
    LogReader.readNextRecord checksum table0 uncompress fuel { lr with part := some (j, r) } =
      some ((LogReader.rollRLogFile checksum { lr with part := some (j, r') }).1, .eof, record) := by
  rw [readNextRecord_of_part rfl]
  simp [LogReader.readPart, h]

variable (fmt gcOnTableRecoverCount checksum) in
/-- The records the reader of the open part `j` returns, replayed one a
round: the loop then stands before the call that returns `st`. -/
theorem replayLoop_reads {j : Nat} {r r' : Reader} {records : List (List UInt8)} {st : Status}
    (hr : Reader.Reads table0 uncompress fuel r records st r') :
    ∀ (s : Replay), s.reader.part = some (j, r) →
      ∃ rk, Reader.readRecord table0 uncompress fuel rk = some (r', st, []) ∧ ∀ n,
        replayLoop fmt gcOnTableRecoverCount checksum table0 uncompress fuel (records.length + n) s =
          replayLoop fmt gcOnTableRecoverCount checksum table0 uncompress fuel n
            (records.foldl (replayRecord fmt gcOnTableRecoverCount)
              { s with reader := { s.reader with part := some (j, rk) } }) := by
  induction hr with
  | stop hs hread =>
    intro s hp
    refine ⟨_, hread, fun n => ?_⟩
    rw [List.length_nil, Nat.zero_add, List.foldl_nil, ← hp]
  | @next r1 r2 r3 record records st0 hread _ ih =>
    intro s hp
    -- the record, read at the front, leaves the reader at part `j`
    have hnext : LogReader.readNextRecord checksum table0 uncompress fuel s.reader =
        some ({ s.reader with part := some (j, r2) }, Status.ok, record) := by
      rw [readNextRecord_of_part hp]
      simp [LogReader.readPart, hread]
    obtain ⟨rk, hrk, hloop⟩ := ih (replayRecord fmt gcOnTableRecoverCount
      { s with reader := { s.reader with part := some (j, r2) } } record) (by simp)
    refine ⟨rk, hrk, fun n => ?_⟩
    rw [List.length_cons, Nat.add_right_comm, replayLoop_ok hnext, hloop, List.foldl_cons]
    simp only [replayRecord_with_reader]

@[simp] theorem replayRecord_lastLogIndex (s : Replay) (record : List UInt8) :
    (replayRecord fmt gcOnTableRecoverCount s record).lastLogIndex = s.lastLogIndex := by
  unfold replayRecord
  split
  · rfl
  · split <;> rfl

theorem foldl_replayRecord_lastLogIndex (records : List (List UInt8)) :
    ∀ s : Replay, (records.foldl (replayRecord fmt gcOnTableRecoverCount) s).lastLogIndex = s.lastLogIndex := by
  induction records with
  | nil => intro s; rfl
  | cons record records ih =>
    intro s
    rw [List.foldl_cons, ih, replayRecord_lastLogIndex]

/-! ## The replay part by part -/

variable (checksum table0 uncompress) in
/-- The file of an ended part read from its start: its records, then `Eof`,
then `WaitRecord`. -/
def EndedReads (fuel : Nat) (F : List UInt8) (records : List (List UInt8)) : Prop :=
  ∃ r' r'', Reader.Reads table0 uncompress fuel (Reader.new F checksum 0 false) records .eof r' ∧
    Reader.readRecord table0 uncompress fuel r' = some (r'', .waitRecord, [])

variable (checksum table0 uncompress) in
/-- The file of the part being written, maybe cut short, read from its
start: its records, then `WaitRecord`. -/
def OpenReads (fuel : Nat) (F : List UInt8) (records : List (List UInt8)) : Prop :=
  ∃ r', Reader.Reads table0 uncompress fuel (Reader.new F checksum 0 false) records .waitRecord r'

variable {lr0 : LogReader}

/-- An ended part with a later one: its records are replayed, and `Eof`
rolls the reader to the next part, which the loop then reads. -/
theorem replayLoop_ended_next {j j' : Nat} {F F' : List UInt8} {records : List (List UInt8)}
    (hr : EndedReads checksum table0 uncompress fuel F records)
    (hc : lr0.compressed = false) (hnext : LogReader.nextPartLoop j lr0.logs = some j') (hj' : j' < 2 ^ 31)
    (hf : lr0.files.lookup j' = some F') {s : Replay} (hs : s.reader = lr0.openPart checksum j F)
    (hl : s.lastLogIndex ≠ j') (n : Nat) :
    replayLoop fmt gcOnTableRecoverCount checksum table0 uncompress fuel (records.length + 1 + n) s =
      replayLoop fmt gcOnTableRecoverCount checksum table0 uncompress fuel n
        { records.foldl (replayRecord fmt gcOnTableRecoverCount) s with
          reader := lr0.openPart checksum j' F', lastLogIndex := j' } := by
  obtain ⟨r', r'', hreads, -⟩ := hr
  obtain ⟨rk, hrk, hloop⟩ := replayLoop_reads fmt gcOnTableRecoverCount checksum hreads s
    (by rw [hs, LogReader.openPart, hc])
  -- the roll at `Eof` opens the next part
  have hroll : LogReader.rollRLogFile checksum { s.reader with part := some (j, r') } =
      (lr0.openPart checksum j' F', 0) := by
    rw [LogReader.rollRLogFile_of_partToOpen checksum (by rw [hs]; exact hnext) hj' (by rw [hs]; exact hf), hs]
    rfl
  have heof : LogReader.readNextRecord checksum table0 uncompress fuel
      { s.reader with part := some (j, rk) } = some (lr0.openPart checksum j' F', .eof, []) := by
    rw [readNextRecord_with_part_eof hrk, hroll]
  rw [Nat.add_assoc, hloop, Nat.add_comm 1 n,
    replayLoop_eof_next (by rw [foldl_replayRecord_with_reader]; exact heof)]
  · rw [foldl_replayRecord_with_reader]
    rfl
  · rw [foldl_replayRecord_lastLogIndex]
    simp [LogReader.getLogIndex, LogReader.openPart, Ne.symm hl]

theorem getEndLogIndex_with_part (lr : LogReader) (p : Option (Nat × Reader)) :
    ({ lr with part := p } : LogReader).getEndLogIndex = lr.getEndLogIndex := rfl

/-- A reader in the first part of `LogParts`: `WaitRecord` finds no later
part to roll to. -/
theorem not_later_part {s : Replay} {j : Nat} {F : List UInt8} (hs : s.reader = lr0.openPart checksum j F)
    (hhead : lr0.getEndLogIndex = j) (r : Reader) :
    ¬ (({ s.reader with part := some (j, r) } : LogReader).getEndLogIndex ≥ 0 ∧
      ({ s.reader with part := some (j, r) } : LogReader).getEndLogIndex >
        ({ s.reader with part := some (j, r) } : LogReader).getLogIndex) := by
  rw [getEndLogIndex_with_part, hs, LogReader.openPart, getEndLogIndex_with_part, hhead]
  simp [LogReader.getLogIndex]

/-- The part being written, the last one: its records are replayed, and
`WaitRecord` with no later part ends the replay. -/
theorem replayLoop_open_last {j : Nat} {F : List UInt8} {records : List (List UInt8)}
    (hr : OpenReads checksum table0 uncompress fuel F records) (hc : lr0.compressed = false)
    (hhead : lr0.getEndLogIndex = j) {s : Replay} (hs : s.reader = lr0.openPart checksum j F) (n : Nat) :
    ∃ lr : LogReader, lr.getLogIndex = (j : Int) ∧
      replayLoop fmt gcOnTableRecoverCount checksum table0 uncompress fuel (records.length + 1 + n) s =
        some ({ records.foldl (replayRecord fmt gcOnTableRecoverCount) s with reader := lr }, false) := by
  obtain ⟨r', hreads⟩ := hr
  obtain ⟨rk, hrk, hloop⟩ := replayLoop_reads fmt gcOnTableRecoverCount checksum hreads s
    (by rw [hs, LogReader.openPart, hc])
  have hwait : LogReader.readNextRecord checksum table0 uncompress fuel
      { s.reader with part := some (j, rk) } = some ({ s.reader with part := some (j, r') }, .waitRecord, []) :=
    readNextRecord_with_part hrk (by decide)
  refine ⟨{ s.reader with part := some (j, r') }, rfl, ?_⟩
  rw [Nat.add_assoc, hloop, Nat.add_comm 1 n,
    replayLoop_wait_stop (by rw [foldl_replayRecord_with_reader]; exact hwait) (not_later_part hs hhead r'),
    foldl_replayRecord_with_reader]

/-- The last part, ended: its records are replayed, `Eof` finds no later
part, and the replay ends there or, where the loop did not know that part
yet, at the `WaitRecord` after it. -/
theorem replayLoop_ended_last {j : Nat} {F : List UInt8} {records : List (List UInt8)}
    (hr : EndedReads checksum table0 uncompress fuel F records) (hc : lr0.compressed = false)
    (hhead : lr0.getEndLogIndex = j) (hnone : LogReader.nextPartLoop j lr0.logs = none)
    {s : Replay} (hs : s.reader = lr0.openPart checksum j F) (n : Nat) :
    ∃ (lr : LogReader) (flag : Bool), lr.getLogIndex = (j : Int) ∧
      replayLoop fmt gcOnTableRecoverCount checksum table0 uncompress fuel (records.length + 2 + n) s =
        some ({ records.foldl (replayRecord fmt gcOnTableRecoverCount) s with
          reader := lr, lastLogIndex := (j : Int) },
          flag) := by
  obtain ⟨r', r'', hreads, hwait⟩ := hr
  obtain ⟨rk, hrk, hloop⟩ := replayLoop_reads fmt gcOnTableRecoverCount checksum hreads s
    (by rw [hs, LogReader.openPart, hc])
  -- the roll at `Eof` finds no later part and leaves the reader where it is
  have hroll : LogReader.rollRLogFile checksum { s.reader with part := some (j, r') } =
      ({ s.reader with part := some (j, r') }, -1) :=
    LogReader.rollRLogFile_of_partToOpen_none checksum (by rw [hs]; exact hnone)
  have heof : LogReader.readNextRecord checksum table0 uncompress fuel
      { s.reader with part := some (j, rk) } = some ({ s.reader with part := some (j, r') }, .eof, []) := by
    rw [readNextRecord_with_part_eof hrk, hroll]
  have hidx : ({ s.reader with part := some (j, r') } : LogReader).getLogIndex = j := by
    simp [LogReader.getLogIndex]
  rw [show records.length + 2 + n = records.length + (n + 1 + 1) by omega, hloop]
  by_cases hlj : s.lastLogIndex = j
  · -- the loop came to this part by `Eof`: the end of the log
    refine ⟨_, true, hidx, ?_⟩
    have hfl : (records.foldl (replayRecord fmt gcOnTableRecoverCount) s).lastLogIndex = j := by
      rw [foldl_replayRecord_lastLogIndex, hlj]
    rw [replayLoop_eof_stop (by rw [foldl_replayRecord_with_reader]; exact heof)]
    · rw [foldl_replayRecord_with_reader, ← hfl]
    · rw [foldl_replayRecord_lastLogIndex, hidx, hlj]
  · -- the first part opened: one more round, which waits
    have hwait' : LogReader.readNextRecord checksum table0 uncompress fuel
        { s.reader with part := some (j, r') } = some ({ s.reader with part := some (j, r'') }, .waitRecord, []) :=
      readNextRecord_with_part hwait (by decide)
    refine ⟨{ s.reader with part := some (j, r'') }, false, by simp [LogReader.getLogIndex], ?_⟩
    rw [replayLoop_eof_next (by rw [foldl_replayRecord_with_reader]; exact heof)
        (by rw [foldl_replayRecord_lastLogIndex, hidx]; exact Ne.symm hlj),
      replayLoop_wait_stop hwait' (not_later_part hs hhead r''), foldl_replayRecord_with_reader]
    rfl

/-! ## The parts in increasing order -/

section Order

variable {logs : LogParts}

theorem le_of_head_eq {M : List Nat} (hp : M.Pairwise fun a b => b < a) {k : Nat} (hk : M.head? = some k) :
    ∀ x ∈ M, x ≤ k := by
  cases M with
  | nil => simp at hk
  | cons a rest =>
    rw [List.head?_cons, Option.some.injEq] at hk
    subst hk
    intro x hx
    rcases List.mem_cons.mp hx with rfl | hx
    · exact Nat.le_refl x
    · exact Nat.le_of_lt ((List.pairwise_cons.mp hp).1 x hx)

/-- The last of the part indexes in increasing order is the first of
`LogParts`. -/
theorem head_of_suffix (hd : LogReader.Descending logs) {j : Nat} (h : [j] <:+ (logs.map Prod.fst).reverse) :
    (logs.map Prod.fst).head? = some j ∧ ∀ k ∈ logs.map Prod.fst, k ≤ j := by
  obtain ⟨t, ht⟩ : [j] <+: logs.map Prod.fst := by
    simpa using List.reverse_prefix.mpr h
  have hhead : (logs.map Prod.fst).head? = some j := by
    rw [← ht]
    rfl
  exact ⟨hhead, le_of_head_eq (List.pairwise_map.mpr hd) hhead⟩

/-- Two part indexes next to each other in increasing order: the walk of
`RollRLogFile` from the lower one takes the other, whatever parts are
missing between them. -/
theorem nextPartLoop_of_suffix (hd : LogReader.Descending logs) {j j' : Nat} {ps : List Nat}
    (h : j :: j' :: ps <:+ (logs.map Prod.fst).reverse) :
    j < j' ∧ LogReader.nextPartLoop j logs = some j' := by
  obtain ⟨t, ht⟩ : (j :: j' :: ps).reverse <+: logs.map Prod.fst := by
    simpa using List.reverse_prefix.mpr h
  have hM : logs.map Prod.fst = ps.reverse ++ j' :: j :: t := by
    rw [← ht]
    simp
  have hp : (logs.map Prod.fst).Pairwise fun a b => b < a := List.pairwise_map.mpr hd
  rw [hM, List.pairwise_append, List.pairwise_cons, List.pairwise_cons] at hp
  obtain ⟨-, ⟨hj', hj, -⟩, hps⟩ := hp
  have hlt : j < j' := hj' j List.mem_cons_self
  refine ⟨hlt, LogReader.nextPartLoop_eq_some hd (by rw [hM]; simp) hlt ?_ (Or.inr ⟨j, by rw [hM]; simp, Nat.le_refl j⟩)⟩
  -- the indexes above `j` are `j'` and those after it
  intro k hk hjk
  rw [hM] at hk
  simp only [List.mem_append, List.mem_cons] at hk
  rcases hk with hk | rfl | rfl | hk
  · exact Nat.le_of_lt (hps k hk j' List.mem_cons_self)
  · exact Nat.le_refl k
  · omega
  · have := hj k hk
    omega

theorem getEndLogIndex_of_head {lr : LogReader} {j : Nat} (h : (lr.logs.map Prod.fst).head? = some j)
    (hj : j < 2 ^ 31) : lr.getEndLogIndex = j := by
  unfold LogReader.getEndLogIndex
  cases hl : lr.logs with
  | nil => rw [hl] at h; simp at h
  | cons p rest =>
    obtain ⟨k, v⟩ := p
    rw [hl] at h
    simp only [List.map_cons, List.head?_cons, Option.some.injEq] at h
    subst h
    have hk : intOfKey k = k := if_pos hj
    simp [hk]

end Order

variable (checksum table0 uncompress) in
/-- What the file of part `k` reads back from its start: the records `recs`
of an ended part, or of the part being written, the first of `LogParts`. -/
def PartReads (fuel : Nat) (logs : LogParts) (files : List (Nat × List UInt8)) (recs : List (List UInt8))
    (k : Nat) : Prop :=
  ∃ F, files.lookup k = some F ∧
    (EndedReads checksum table0 uncompress fuel F recs ∨
      ((logs.map Prod.fst).head? = some k ∧ OpenReads checksum table0 uncompress fuel F recs))

variable (fmt gcOnTableRecoverCount) in
/-- From the part `j` on, every part of `LogParts` in increasing order: the
loop replays the records of each in turn, with a round for the end of each,
and stops in the last part. -/
theorem replayLoop_walk (recsOf : Nat → List (List UInt8)) (hc : lr0.compressed = false)
    (hd : LogReader.Descending lr0.logs) (hb : ∀ k ∈ lr0.logs.map Prod.fst, k < 2 ^ 31)
    (hparts : ∀ k ∈ lr0.logs.map Prod.fst, PartReads checksum table0 uncompress fuel lr0.logs lr0.files (recsOf k) k) :
    ∀ (ps : List Nat) (j : Nat), j :: ps <:+ (lr0.logs.map Prod.fst).reverse →
      ∀ (s : Replay) (F : List UInt8), lr0.files.lookup j = some F → s.reader = lr0.openPart checksum j F →
        s.lastLogIndex ≤ j → ∀ n, ∃ (lr : LogReader) (l : Int) (flag : Bool),
          lr.getLogIndex = lr0.getEndLogIndex ∧
          replayLoop fmt gcOnTableRecoverCount checksum table0 uncompress fuel
              (((j :: ps).map fun k => (recsOf k).length + 1).sum + 1 + n) s =
            some ({ ((j :: ps).flatMap recsOf).foldl (replayRecord fmt gcOnTableRecoverCount) s with
              reader := lr, lastLogIndex := l }, flag) := by
  intro ps
  induction ps with
  | nil =>
    -- the last part: ended, or the one being written
    intro j hsuf s F hF hs _ n
    obtain ⟨hhead, hle⟩ := head_of_suffix hd hsuf
    have hjm : j ∈ lr0.logs.map Prod.fst := List.mem_of_mem_head? hhead
    have hend := getEndLogIndex_of_head hhead (hb j hjm)
    obtain ⟨F', hF', hreads⟩ := hparts j hjm
    obtain rfl : F' = F := Option.some.inj (hF'.symm.trans hF)
    simp only [List.map_cons, List.map_nil, List.sum_cons, List.sum_nil, Nat.add_zero, List.flatMap_cons,
      List.flatMap_nil, List.append_nil]
    rcases hreads with hr | ⟨-, hr⟩
    · obtain ⟨lr, flag, hidx, hloop⟩ := replayLoop_ended_last hr hc hend
        (LogReader.nextPartLoop_eq_none_of_le hle) hs n
      have hround : (recsOf j).length + 1 + 1 + n = (recsOf j).length + 2 + n := by omega
      exact ⟨lr, j, flag, by rw [hidx, hend], by rw [hround, hloop]⟩
    · obtain ⟨lr, hidx, hloop⟩ := replayLoop_open_last hr hc hend hs (1 + n)
      exact ⟨lr, _, false, by rw [hidx, hend], by rw [Nat.add_assoc, hloop]⟩
  | cons j' ps ih =>
    -- an ended part, then the walk from the next one
    intro j hsuf s F hF hs hl n
    obtain ⟨hlt, hnext⟩ := nextPartLoop_of_suffix hd hsuf
    have hsuf' : j' :: ps <:+ (lr0.logs.map Prod.fst).reverse := (List.suffix_cons j _).trans hsuf
    have hmem : ∀ k ∈ j :: j' :: ps, k ∈ lr0.logs.map Prod.fst := by
      intro k hk
      have := hsuf.subset hk
      rwa [List.mem_reverse] at this
    obtain ⟨F', hF', hreads⟩ := hparts j (hmem j List.mem_cons_self)
    obtain rfl : F' = F := Option.some.inj (hF'.symm.trans hF)
    have hr : EndedReads checksum table0 uncompress fuel F' (recsOf j) := by
      rcases hreads with hr | ⟨hhead, -⟩
      · exact hr
      · -- the first of `LogParts` is the largest index, and `j'` is larger
        have := le_of_head_eq (List.pairwise_map.mpr hd) hhead j' (hmem j' (by simp))
        omega
    obtain ⟨F'', hF'', -⟩ := hparts j' (hmem j' (by simp))
    obtain ⟨lr, l, flag, hidx, hloop⟩ := ih j' hsuf'
      { (recsOf j).foldl (replayRecord fmt gcOnTableRecoverCount) s with
        reader := lr0.openPart checksum j' F'', lastLogIndex := j' } F'' hF'' rfl (Int.le_refl _) n
    refine ⟨lr, l, flag, hidx, ?_⟩
    have hround : ((j :: j' :: ps).map fun k => (recsOf k).length + 1).sum + 1 + n =
        (recsOf j).length + 1 + (((j' :: ps).map fun k => (recsOf k).length + 1).sum + 1 + n) := by
      rw [List.map_cons, List.sum_cons]
      omega
    have hflat : (j :: j' :: ps).flatMap recsOf = recsOf j ++ (j' :: ps).flatMap recsOf := rfl
    rw [hround, replayLoop_ended_next hr hc hnext (hb j' (hmem j' (by simp))) hF'' hs (by omega), hloop,
      hflat, List.foldl_append, foldl_replayRecord_with_position]

/-- The first read opens the part `RollRLogFile` finds: the loop goes as
from that part opened. -/
theorem replayLoop_first {s : Replay} (hp : s.reader.part = none) {j : Nat} {F : List UInt8}
    (hj : s.reader.partToOpen = some j) (hj31 : j < 2 ^ 31) (hF : s.reader.files.lookup j = some F) (n : Nat) :
    replayLoop fmt gcOnTableRecoverCount checksum table0 uncompress fuel (n + 1) s =
      replayLoop fmt gcOnTableRecoverCount checksum table0 uncompress fuel (n + 1)
        { s with reader := s.reader.openPart checksum j F } := by
  have hread : LogReader.readNextRecord checksum table0 uncompress fuel s.reader =
      LogReader.readNextRecord checksum table0 uncompress fuel (s.reader.openPart checksum j F) := by
    unfold LogReader.readNextRecord
    rw [hp]
    simp only [LogReader.rollRLogFile_of_partToOpen checksum hj hj31 hF]
    rfl
  simp only [replayLoop, hread]

end Loop

/-! ## The replay of the binlog -/

section Recover

variable {fmt gcOnTableRecoverCount checksum table0 uncompress compress} {fuel : Nat}

variable (fmt gcOnTableRecoverCount compress) in
/-- `RecoverFromBinlog` over parts whose files read back `recsOf`: the
records of the part the offset falls in and of every later part are
replayed, in the order of the parts, from the offset, and it returns `true`,
after one round for the end of each part and one for the first read. -/
theorem recoverFromBinlog_of_reads (recsOf : Nat → List (List UInt8)) {logs : LogParts}
    {files : List (Nat × List UInt8)} (hd : LogReader.Descending logs) (hb : ∀ k ∈ logs.map Prod.fst, k < 2 ^ 31)
    (hparts : ∀ k ∈ logs.map Prod.fst, PartReads checksum table0 uncompress fuel logs files (recsOf k) k)
    {offset j : Nat} (hj : LogReader.firstPartLoop offset logs = some j) :
    ∃ ps, j :: ps <:+ (logs.map Prod.fst).reverse ∧ ∀ n, ∃ files',
      recoverFromBinlog fmt gcOnTableRecoverCount checksum table0 uncompress compress logs files offset fuel
          (((j :: ps).map fun k => (recsOf k).length + 1).sum + 2 + n) =
        some (true,
          (((j :: ps).flatMap recsOf).foldl (replayRecord fmt gcOnTableRecoverCount)
            ⟨(LogReader.new logs files false).setOffset offset, offset, -1, 0, 0, []⟩).curOffset,
          (((j :: ps).flatMap recsOf).foldl (replayRecord fmt gcOnTableRecoverCount)
            ⟨(LogReader.new logs files false).setOffset offset, offset, -1, 0, 0, []⟩).calls, files') := by
  obtain ⟨v, hjv, -⟩ := LogReader.firstPartLoop_mem hj
  have hjm : j ∈ logs.map Prod.fst := List.mem_map.mpr ⟨(j, v), hjv, rfl⟩
  obtain ⟨ps, hsuf⟩ : ∃ ps, j :: ps <:+ (logs.map Prod.fst).reverse := by
    obtain ⟨u, t, h⟩ := List.mem_iff_append.mp (List.mem_reverse.mpr hjm)
    exact ⟨t, u, h.symm⟩
  refine ⟨ps, hsuf, fun n => ?_⟩
  obtain ⟨F, hF, -⟩ := hparts j hjm
  unfold recoverFromBinlog
  dsimp only
  -- `last_log_index` starts at `GetLogIndex()` of a reader before its first roll
  rw [show ((LogReader.new logs files false).setOffset offset).getLogIndex = -1 from rfl]
  set lr0 := (LogReader.new logs files false).setOffset offset
  obtain ⟨lr, l, flag, hidx, hloop⟩ := replayLoop_walk fmt gcOnTableRecoverCount recsOf
    (show lr0.compressed = false from rfl) hd hb hparts ps j hsuf
    { (⟨lr0, offset, -1, 0, 0, []⟩ : Replay) with reader := lr0.openPart checksum j F } F hF
    rfl (show (-1 : Int) ≤ j by omega) (n + 1)
  have hround : ((j :: ps).map fun k => (recsOf k).length + 1).sum + 2 + n =
      ((j :: ps).map fun k => (recsOf k).length + 1).sum + 1 + n + 1 := by omega
  -- the reader ends in the first of `LogParts`, whose file is there
  have hhead : ∃ k, (logs.map Prod.fst).head? = some k := by
    cases h : logs.map Prod.fst with
    | nil => rw [h] at hjm; cases hjm
    | cons k _ => exact ⟨k, rfl⟩
  obtain ⟨k, hk⟩ := hhead
  have hkm : k ∈ logs.map Prod.fst := List.mem_of_mem_head? hk
  have hend : lr.getLogIndex = k := by
    rw [hidx]
    exact getEndLogIndex_of_head hk (hb k hkm)
  obtain ⟨Fk, hFk, -⟩ := hparts k hkm
  rw [hround, replayLoop_first (s := ⟨lr0, offset, -1, 0, 0, []⟩) rfl hj (hb j hjm) hF, Nat.add_assoc _ n 1,
    hloop, Option.map_some, foldl_replayRecord_with_reader]
  cases flag with
  | true => exact ⟨files, rfl⟩
  | false =>
    refine ⟨LogReplicator.setFile k (endLogAt table0 compress Fk lr.getLastRecordEndOffset) files, ?_⟩
    simp only [hend, Int.toNat_natCast, hFk]
    simp

/-- With no part in `LogParts` the first read waits, nothing is replayed,
and `latest_offset` is the offset. -/
theorem recoverFromBinlog_no_parts (files : List (Nat × List UInt8)) (offset n : Nat) :
    recoverFromBinlog fmt gcOnTableRecoverCount checksum table0 uncompress compress [] files offset fuel (n + 1) =
      some (true, offset, [], files) := by
  rfl

end Recover

end Binlog

end Fedb.Storage
