import Fedb.Log.Reader

/-! # `LogReader`: a binlog of parts

A binlog is a directory of part files, each a log (`Reader`), and
`LogParts`, a `Skiplist<uint32_t, uint64_t, DefaultComparator>` from part
index to the log offset the part starts after, descending by index
(`src/log/log_reader.cc`, `src/log/log_reader.h`). `LogReader` reads the
parts one after the other: `RollRLogFile` opens the first one, the last part
that starts at or before `start_offset_`, and after that the next one, and
`ReadNextRecord` rolls to the next part when a part ends in `Eof`.

`LogParts` is its level-0 chain, a list of (index, start offset) pairs; the
directory is the list of part files by index, the name
`FormatToString(index, FLAGS_binlog_name_length) + ".log"` being one per
index. `log_part_index_` and `reader_` (with `sf_`) are set together by
`RollRLogFile` and never reset, so they are one field, `none` before the
first roll. A part index, a `uint32_t`, becomes the `int` `log_part_index_`
through `(int)`, which is `intOfKey`.
-/

namespace Fedb.Log

/-- `LogParts`, as the (part index, start offset) pairs of its chain. -/
abbrev LogParts := List (Nat × Nat)

/-- The members of `LogReader`: the parts, the directory, the open part and
its reader, `start_offset_` and `compressed_`. -/
structure LogReader where
  logs : LogParts
  files : List (Nat × List UInt8)
  part : Option (Nat × Reader)
  startOffset : Nat
  compressed : Bool
  deriving Repr, DecidableEq

/-- `(int)` of a `uint32_t`. -/
def intOfKey (k : Nat) : Int := if k < 2 ^ 31 then k else (k : Int) - 2 ^ 32

namespace LogReader

/-- `LogReader(logs, log_path, compressed)`. -/
def new (logs : LogParts) (files : List (Nat × List UInt8)) (compressed : Bool) : LogReader :=
  ⟨logs, files, none, 0, compressed⟩

/-- `SetOffset(start_offset)`. -/
def setOffset (lr : LogReader) (startOffset : Nat) : LogReader := { lr with startOffset := startOffset }

/-- `GetLogIndex()`: `log_part_index_`, `-1` before the first roll. -/
def getLogIndex (lr : LogReader) : Int :=
  match lr.part with
  | none => -1
  | some (i, _) => i

/-- `GetLastRecordEndOffset()`. -/
def getLastRecordEndOffset (lr : LogReader) : Nat :=
  match lr.part with
  | none => 0
  | some (_, r) => r.lastRecordEndOffset

/-- `GoBackToLastBlock()`. -/
def goBackToLastBlock (lr : LogReader) : LogReader :=
  { lr with part := lr.part.map fun (i, r) => (i, r.goBackToLastBlock) }

/-- `GoBackToStart()`. -/
def goBackToStart (lr : LogReader) : LogReader :=
  { lr with part := lr.part.map fun (i, r) => (i, r.goBackToStart) }

/-- `GetEndLogIndex()`: the first, largest, part index. -/
def getEndLogIndex (lr : LogReader) : Int :=
  if lr.logs.length ≤ 0 then -1
  else
    match lr.logs.head? with
    | some (k, _) => intOfKey k
    | none => -1

/-- The walk of `RollRLogFile` when no part is open: the first part whose
start offset is at most `start_offset_`. -/
def firstPartLoop (startOffset : Nat) : LogParts → Option Nat
  | [] => none
  | (k, v) :: rest => if v ≤ startOffset then some k else firstPartLoop startOffset rest

/-- The walk of `RollRLogFile` when part `L` is open: a part of index `L + 1`
is taken, one of index `L` stops the walk, and otherwise a part is taken when
the part after it has an index of at most `L`. -/
def nextPartLoop (L : Nat) : LogParts → Option Nat
  | [] => none
  | (k, _) :: rest =>
    if k = L + 1 then some k
    else if k = L then none
    else
      match rest with
      | [] => none
      | (k', _) :: _ => if k' ≤ L ∧ k > L then some k else nextPartLoop L rest

section Roll

/-- The index the walks of `RollRLogFile` find. -/
def partToOpen (lr : LogReader) : Option Nat :=
  match lr.part with
  | none => firstPartLoop lr.startOffset lr.logs
  | some (L, _) => nextPartLoop L lr.logs

variable (checksum : Bool)

/-- Part `i` opened from `file`, with a new `Reader`: the checksum
`FLAGS_binlog_enable_crc`, no initial offset. -/
def openPart (lr : LogReader) (i : Nat) (file : List UInt8) : LogReader :=
  { lr with part := some (i, Reader.new file checksum 0 lr.compressed) }

/-- `RollRLogFile()`: the part it opens and `0`, or `-1` and nothing
changed. -/
def rollRLogFile (lr : LogReader) : LogReader × Int :=
  if lr.logs.length ≤ 0 then (lr, -1)
  else
    -- use log entry offset to find the log part file
    let index : Int := ((partToOpen lr).map intOfKey).getD (-1)
    if index ≥ 0 then
      match lr.files.lookup index.toNat with
      | none => (lr, -1)
      -- roll a new log part file, reset status
      | some file => (lr.openPart checksum index.toNat file, 0)
    else (lr, -1)

variable (table0 : UInt8 → UInt32) (uncompress : CompressType → List UInt8 → Option (List UInt8))

/-- `reader_->ReadRecord(record, buffer)` on the open part `i`; at `Eof` the
reader rolls to the next part, and returns `Eof` whether it could or not. -/
def readPart (fuel : Nat) (lr : LogReader) (i : Nat) (r : Reader) : Option (LogReader × Status × List UInt8) :=
  (Reader.readRecord table0 uncompress fuel r).map fun (r, status, record) =>
    let lr := { lr with part := some (i, r) }
    if status = .eof then ((rollRLogFile checksum lr).1, .eof, record) else (lr, status, record)

/-- `ReadNextRecord(record, buffer)`; `none` where the reader runs out of
fuel. -/
def readNextRecord (fuel : Nat) (lr : LogReader) : Option (LogReader × Status × List UInt8) :=
  match lr.part with
  | some (i, r) => readPart checksum table0 uncompress fuel lr i r
  | none =>
    -- first read record: `RollRLogFile` fails exactly when it opens no part
    let lr := (rollRLogFile checksum lr).1
    match lr.part with
    | none => some (lr, .waitRecord, [])
    | some (i, r) => readPart checksum table0 uncompress fuel lr i r

end Roll

/-! ## The part `RollRLogFile` opens -/

/-- `LogParts` in `DefaultComparator` order with distinct keys: every part
after another has a smaller index. -/
def Descending (logs : LogParts) : Prop := logs.Pairwise fun a b => b.1 < a.1

instance (logs : LogParts) : Decidable (Descending logs) := inferInstanceAs (Decidable (List.Pairwise _ _))

section Walks

variable {L o : Nat}

/-- The first part that starts at or before `o` is the largest such index. -/
theorem firstPartLoop_eq_some {m v : Nat} :
    ∀ {logs : LogParts}, Descending logs → (m, v) ∈ logs → v ≤ o →
      (∀ k w, (k, w) ∈ logs → w ≤ o → k ≤ m) → firstPartLoop o logs = some m
  | [], _, hm, _, _ => absurd hm List.not_mem_nil
  | (k, w) :: rest, hd, hm, hv, hmax => by
    rw [Descending, List.pairwise_cons] at hd
    unfold firstPartLoop
    split_ifs with hw
    · -- the walk stops at `k`, which no larger index that starts early enough precedes
      have hkm : k ≤ m := hmax k w List.mem_cons_self hw
      have hmk : m ≤ k := by
        rcases List.mem_cons.mp hm with h | h
        · exact Nat.le_of_eq (Prod.mk.inj h).1
        · exact Nat.le_of_lt (hd.1 _ h)
      rw [Nat.le_antisymm hkm hmk]
    · have hm' : (m, v) ∈ rest := by
        rcases List.mem_cons.mp hm with h | h
        · cases h
          exact absurd hv hw
        · exact h
      exact firstPartLoop_eq_some hd.2 hm' hv fun k' w' h' => hmax k' w' (List.mem_cons_of_mem _ h')

theorem firstPartLoop_eq_none : ∀ {logs : LogParts}, (∀ k w, (k, w) ∈ logs → o < w) → firstPartLoop o logs = none
  | [], _ => rfl
  | (k, w) :: rest, hlate => by
    have hw := hlate k w List.mem_cons_self
    unfold firstPartLoop
    rw [if_neg (by omega)]
    exact firstPartLoop_eq_none fun k' w' h' => hlate k' w' (List.mem_cons_of_mem _ h')

/-- The walk from an open part `L` takes the smallest index above `L` when
that index is `L + 1`, or when a part of index at most `L` follows it. -/
theorem nextPartLoop_eq_some {m : Nat} :
    ∀ {logs : LogParts}, Descending logs → m ∈ logs.map Prod.fst → L < m →
      (∀ k ∈ logs.map Prod.fst, L < k → m ≤ k) → (m = L + 1 ∨ ∃ k ∈ logs.map Prod.fst, k ≤ L) →
      nextPartLoop L logs = some m
  | [], _, hm, _, _, _ => absurd hm List.not_mem_nil
  | (k, w) :: rest, hd, hm, hL, hmin, hcond => by
    rw [Descending, List.pairwise_cons] at hd
    simp only [List.map_cons, List.mem_cons, forall_eq_or_imp, exists_eq_or_imp] at hm hmin hcond
    -- every index after the first is below it
    have hbelow : ∀ j ∈ rest.map Prod.fst, j < k := by
      intro j hj
      obtain ⟨⟨j', w'⟩, hj', rfl⟩ := List.mem_map.mp hj
      exact hd.1 _ hj'
    unfold nextPartLoop
    split_ifs with h1 h2
    · -- index `L + 1`: no index lies between it and `L`
      rcases hm with rfl | hm
      · rfl
      · have := hbelow m hm
        omega
    · -- index `L`: the smallest index above `L` would have come first
      rcases hm with rfl | hm
      · omega
      · have := hbelow m hm
        omega
    · rcases rest with _ | ⟨⟨k', w'⟩, rest'⟩
      · -- the last part: it is `m`, neither `L + 1` nor above a part of index at most `L`
        simp only [List.map_nil, List.not_mem_nil, or_false] at hm hcond
        subst hm
        rcases hcond with h | h
        · exact absurd h h1
        · simp at h
          omega
      · have hd' := hd.2
        rw [List.pairwise_cons] at hd'
        have hbelow' : ∀ j ∈ rest'.map Prod.fst, j < k' := by
          intro j hj
          obtain ⟨⟨j', w''⟩, hj', rfl⟩ := List.mem_map.mp hj
          exact hd'.1 _ hj'
        simp only [List.map_cons, List.mem_cons] at hm hbelow hmin hcond
        dsimp only
        split_ifs with h3
        · -- the part after `k` is at or below `L`, so `k` is the smallest index above `L`
          rcases hm with rfl | rfl | hm
          · rfl
          · omega
          · have := hbelow' m hm
            omega
        · -- `m` comes later: the part after `k` is still above `L`
          have hk' : L < k' := by
            by_contra hk'
            rcases hm with rfl | rfl | hm
            · exact h3 ⟨by omega, hL⟩
            · omega
            · have := hbelow' m hm
              omega
          have hmk : m ≠ k := by
            rintro rfl
            have := hmin.2 k' (Or.inl rfl) hk'
            have := hbelow k' (Or.inl rfl)
            omega
          refine nextPartLoop_eq_some hd.2 ?_ hL ?_ ?_
          · simpa [hmk] using hm
          · intro j hj hLj
            exact hmin.2 j (by simpa using hj) hLj
          · rcases hcond with h | hk | h
            · exact Or.inl h
            · -- `k` above `m` is above `L`
              have hk'k := hbelow k' (Or.inl rfl)
              rcases hm with rfl | rfl | hm
              · exact absurd rfl hmk
              · omega
              · have := hbelow' m hm
                omega
            · exact Or.inr (by simpa using h)

/-- With every part at or below `L`, there is no next part. -/
theorem nextPartLoop_eq_none_of_le :
    ∀ {logs : LogParts}, (∀ k ∈ logs.map Prod.fst, k ≤ L) → nextPartLoop L logs = none
  | [], _ => rfl
  | (k, _) :: rest, hle => by
    simp only [List.map_cons, List.mem_cons, forall_eq_or_imp] at hle
    unfold nextPartLoop
    split_ifs with h1 h2
    · omega
    · rfl
    · rcases rest with _ | ⟨⟨k', w'⟩, rest'⟩
      · rfl
      · dsimp only
        rw [if_neg (by omega)]
        exact nextPartLoop_eq_none_of_le hle.2

/-- With `L` and `L + 1` gone and every part above `L`, the walk finds no
part of index at most `L` to stop at, and none of index `L + 1`. -/
theorem nextPartLoop_eq_none_of_gap :
    ∀ {logs : LogParts}, L ∉ logs.map Prod.fst → L + 1 ∉ logs.map Prod.fst →
      (∀ k ∈ logs.map Prod.fst, L < k) → nextPartLoop L logs = none
  | [], _, _, _ => rfl
  | (k, _) :: rest, hL, hL1, habove => by
    simp only [List.map_cons, List.mem_cons, not_or, forall_eq_or_imp] at hL hL1 habove
    unfold nextPartLoop
    rw [if_neg (Ne.symm hL1.1), if_neg (Ne.symm hL.1)]
    rcases rest with _ | ⟨⟨k', w'⟩, rest'⟩
    · rfl
    · have hk' : L < k' := habove.2 k' (by simp)
      dsimp only
      rw [if_neg (by omega)]
      exact nextPartLoop_eq_none_of_gap hL.2 hL1.2 habove.2

end Walks

section Roll

variable (checksum : Bool)

theorem rollRLogFile_of_partToOpen {lr : LogReader} {i : Nat} {file : List UInt8} (h : lr.partToOpen = some i)
    (hi : i < 2 ^ 31) (hf : lr.files.lookup i = some file) :
    rollRLogFile checksum lr = (lr.openPart checksum i file, 0) := by
  -- a walk over no parts finds none
  have hne : ¬ lr.logs.length ≤ 0 := by
    intro h0
    rw [Nat.le_zero, List.length_eq_zero_iff] at h0
    unfold partToOpen at h
    rw [h0] at h
    split at h <;> simp [firstPartLoop, nextPartLoop] at h
  have hidx : intOfKey i = (i : Int) := if_pos hi
  unfold rollRLogFile
  simp only [hne, if_false, h, Option.map_some, Option.getD_some, hidx, Int.toNat_natCast, hf]
  rw [if_pos (Int.natCast_nonneg i)]

theorem rollRLogFile_of_partToOpen_none {lr : LogReader} (h : lr.partToOpen = none) :
    rollRLogFile checksum lr = (lr, -1) := by
  unfold rollRLogFile
  simp [h]

/-- `RollRLogFile` on `LogParts` sorted by `DefaultComparator` with distinct
part indexes below `2^31`, every part file present: with no part open it
opens the largest index whose start offset is at most `start_offset_`, and
fails if there is none; with part `L` open it opens the smallest index above
`L` when `L`, `L + 1` or an index below `L` is a part, and fails, with
nothing changed, when no part is above `L` or when every part is above
`L + 1`. -/
theorem rollRLogFile_spec (lr : LogReader) (hd : Descending lr.logs)
    (hbound : ∀ k ∈ lr.logs.map Prod.fst, k < 2 ^ 31)
    (hfiles : ∀ k ∈ lr.logs.map Prod.fst, (lr.files.lookup k).isSome) :
    (lr.part = none →
      (∀ m v, (m, v) ∈ lr.logs → v ≤ lr.startOffset →
        (∀ k w, (k, w) ∈ lr.logs → w ≤ lr.startOffset → k ≤ m) →
        ∃ file, lr.files.lookup m = some file ∧ rollRLogFile checksum lr = (lr.openPart checksum m file, 0)) ∧
      ((∀ k w, (k, w) ∈ lr.logs → lr.startOffset < w) → rollRLogFile checksum lr = (lr, -1))) ∧
    (∀ L r, lr.part = some (L, r) →
      (∀ m ∈ lr.logs.map Prod.fst, L < m → (∀ k ∈ lr.logs.map Prod.fst, L < k → m ≤ k) →
        (L ∈ lr.logs.map Prod.fst ∨ L + 1 ∈ lr.logs.map Prod.fst ∨ ∃ k ∈ lr.logs.map Prod.fst, k < L) →
        ∃ file, lr.files.lookup m = some file ∧ rollRLogFile checksum lr = (lr.openPart checksum m file, 0)) ∧
      ((∀ k ∈ lr.logs.map Prod.fst, k ≤ L) ∨
          (L ∉ lr.logs.map Prod.fst ∧ L + 1 ∉ lr.logs.map Prod.fst ∧ ∀ k ∈ lr.logs.map Prod.fst, L < k) →
        rollRLogFile checksum lr = (lr, -1))) := by
  -- a part that is found has its file, and an index the cast keeps
  have hopen : ∀ m ∈ lr.logs.map Prod.fst, lr.partToOpen = some m →
      ∃ file, lr.files.lookup m = some file ∧ rollRLogFile checksum lr = (lr.openPart checksum m file, 0) := by
    intro m hm h
    obtain ⟨file, hf⟩ := Option.isSome_iff_exists.mp (hfiles m hm)
    exact ⟨file, hf, rollRLogFile_of_partToOpen checksum h (hbound m hm) hf⟩
  constructor
  · -- no part open: the first walk
    intro hnone
    have hwalk : lr.partToOpen = firstPartLoop lr.startOffset lr.logs := by
      rw [partToOpen, hnone]
    refine ⟨fun m v hm hv hmax => ?_, fun hlate => ?_⟩
    · exact hopen m (List.mem_map.mpr ⟨_, hm, rfl⟩)
        (hwalk.trans (firstPartLoop_eq_some hd hm hv hmax))
    · exact rollRLogFile_of_partToOpen_none checksum (hwalk.trans (firstPartLoop_eq_none hlate))
  · -- part `L` open: the second walk
    intro L r hsome
    have hwalk : lr.partToOpen = nextPartLoop L lr.logs := by
      rw [partToOpen, hsome]
    refine ⟨fun m hm hL hmin hcond => ?_, fun hcase => ?_⟩
    · -- with `L + 1` a part, it is the smallest index above `L`
      have hcond' : m = L + 1 ∨ ∃ k ∈ lr.logs.map Prod.fst, k ≤ L := by
        rcases hcond with h | h | ⟨k, hk, hkL⟩
        · exact Or.inr ⟨L, h, Nat.le_refl L⟩
        · have := hmin (L + 1) h (Nat.lt_succ_self L)
          exact Or.inl (by omega)
        · exact Or.inr ⟨k, hk, Nat.le_of_lt hkL⟩
      exact hopen m hm (hwalk.trans (nextPartLoop_eq_some hd hm hL hmin hcond'))
    · apply rollRLogFile_of_partToOpen_none checksum
      rw [hwalk]
      rcases hcase with hle | ⟨hL, hL1, habove⟩
      · exact nextPartLoop_eq_none_of_le hle
      · exact nextPartLoop_eq_none_of_gap hL hL1 habove

/-- Parts `7`, `5` and `3`, starting after the offsets `20`, `10` and `0`,
every file present, read from offset `15`. -/
def threeParts (part : Option (Nat × Reader)) : LogReader :=
  ⟨[(7, 20), (5, 10), (3, 0)], [(3, []), (5, []), (7, [])], part, 15, false⟩

/-- From offset `15` the first roll opens part `5`. -/
theorem rollRLogFile_spec_threeParts :
    Descending (threeParts none).logs ∧ (∀ k ∈ (threeParts none).logs.map Prod.fst, k < 2 ^ 31) ∧
      (∀ k ∈ (threeParts none).logs.map Prod.fst, ((threeParts none).files.lookup k).isSome) ∧
      ∃ file, (threeParts none).files.lookup 5 = some file ∧
        rollRLogFile true (threeParts none) = ((threeParts none).openPart true 5 file, 0) :=
  ⟨by decide, by decide, by decide,
    ((rollRLogFile_spec true (threeParts none) (by decide) (by decide) (by decide)).1 rfl).1 5 10
      (by decide) (by decide) fun k w h hw => by
        simp only [threeParts, List.mem_cons, Prod.mk.injEq, List.not_mem_nil, or_false] at h hw
        omega⟩

/-- Part `5` is open but no longer in `LogParts`, whose only part is `7`:
`RollRLogFile` passes `7` looking for a part at or below `5` after it, finds
none, and fails, though `7` is the next part. -/
theorem rollRLogFile_misses_next_part :
    let lr : LogReader := ⟨[(7, 0)], [(7, [])], some (5, Reader.new [] false 0 false), 0, false⟩
    7 ∈ lr.logs.map Prod.fst ∧ 5 < 7 ∧ rollRLogFile true lr = (lr, -1) := by
  decide

end Roll

end LogReader

end Fedb.Log
