import Fedb.Log.LogReader

/-! # A reader inside a window of the parts

`RollRLogFile` reads `LogParts` only from the top down to the part it looks
for: with a part `L` open it stops at `L` or before, and with none open at
the first part that starts early enough. A reader whose walk ends above `k`
therefore reads the same over the parts above `k` alone, with the files of
those parts, as over all of them (`Window.readNextRecord`), and so does every
later read of it (`Window.readMany`): dropping the parts at or below `k`,
which is what `DeleteBinlog` does, is invisible to it.
-/

namespace Fedb.Log

namespace LogReader

/-- The same reader over the parts `logs` and the directory `files`. -/
def withParts (lr : LogReader) (logs : LogParts) (files : List (Nat × List UInt8)) : LogReader :=
  { lr with logs := logs, files := files }

/-- The parts of `logs` above `k`, in their order. -/
def above (k : Nat) (logs : LogParts) : LogParts := logs.takeWhile fun p => decide (k < p.1)

section Walks

variable {o L k : Nat}

theorem firstPartLoop_mem {p : Nat} :
    ∀ {logs : LogParts}, firstPartLoop o logs = some p → ∃ v, (p, v) ∈ logs ∧ v ≤ o
  | [], h => by cases h
  | (i, v) :: rest, h => by
    unfold firstPartLoop at h
    split_ifs at h with hv
    · cases h
      exact ⟨v, List.mem_cons_self, hv⟩
    · obtain ⟨w, hw, hwo⟩ := firstPartLoop_mem h
      exact ⟨w, List.mem_cons_of_mem _ hw, hwo⟩

/-- The first part that starts early enough is the largest such index. -/
theorem firstPartLoop_max {p : Nat} :
    ∀ {logs : LogParts}, Descending logs → firstPartLoop o logs = some p →
      ∀ i v, (i, v) ∈ logs → v ≤ o → i ≤ p
  | [], _, h => by cases h
  | (j, w) :: rest, hd, h => by
    rw [Descending, List.pairwise_cons] at hd
    intro i v hi hv
    unfold firstPartLoop at h
    split_ifs at h with hw
    · -- the walk stops at the top part, above every other
      cases h
      rcases List.mem_cons.1 hi with h | h
      · exact Nat.le_of_eq (Prod.mk.inj h).1
      · exact Nat.le_of_lt (hd.1 _ h)
    · rcases List.mem_cons.1 hi with h' | h'
      · cases h'
        exact absurd hv hw
      · exact firstPartLoop_max hd.2 h i v h' hv

theorem nextPartLoop_mem {m : Nat} :
    ∀ {logs : LogParts}, nextPartLoop L logs = some m → m ∈ logs.map Prod.fst ∧ L < m
  | [], h => by cases h
  | (i, v) :: rest, h => by
    unfold nextPartLoop at h
    split_ifs at h with h1 h2
    · cases h
      exact ⟨List.mem_cons_self, by omega⟩
    · rcases rest with _ | ⟨⟨i', v'⟩, rest'⟩
      · cases h
      · dsimp only at h
        split_ifs at h with h3
        · cases h
          exact ⟨List.mem_cons_self, h3.2⟩
        · obtain ⟨hm, hL⟩ := nextPartLoop_mem h
          exact ⟨List.mem_cons_of_mem _ hm, hL⟩

theorem above_cons_of_lt {i v : Nat} {rest : LogParts} (h : k < i) :
    above k ((i, v) :: rest) = (i, v) :: above k rest := by
  simp [above, h]

theorem mem_above {p : Nat × Nat} {logs : LogParts} (hd : Descending logs) (hp : p ∈ logs) (hk : k < p.1) :
    p ∈ above k logs := by
  induction logs with
  | nil => exact absurd hp List.not_mem_nil
  | cons q rest ih =>
    rw [Descending, List.pairwise_cons] at hd
    -- every part before `p` has a larger index, so the walk of `above` passes it
    have hq : k < q.1 := by
      rcases List.mem_cons.1 hp with h | h
      · rw [← h]
        exact hk
      · exact Nat.lt_trans hk (hd.1 p h)
    rw [above, List.takeWhile_cons_of_pos (by simpa using hq)]
    rcases List.mem_cons.1 hp with h | h
    · rw [h]
      exact List.mem_cons_self
    · exact List.mem_cons_of_mem _ (ih hd.2 h)

/-- A first walk that stops above `k` stops at the same part over the parts
above `k`. -/
theorem firstPartLoop_above {p : Nat} :
    ∀ {logs : LogParts}, Descending logs → firstPartLoop o logs = some p → k < p →
      firstPartLoop o (above k logs) = some p
  | [], _, h, _ => by cases h
  | (i, v) :: rest, hd, h, hk => by
    rw [Descending, List.pairwise_cons] at hd
    unfold firstPartLoop at h
    split_ifs at h with hv
    · cases h
      rw [above_cons_of_lt hk, firstPartLoop, if_pos hv]
    · -- the part found comes later, below `i`
      obtain ⟨w, hw, -⟩ := firstPartLoop_mem h
      have hki : k < i := Nat.lt_trans hk (hd.1 _ hw)
      rw [above_cons_of_lt hki, firstPartLoop, if_neg hv]
      exact firstPartLoop_above hd.2 h hk

/-- A first walk that finds no part finds none over fewer parts. -/
theorem firstPartLoop_above_none :
    ∀ {logs : LogParts}, firstPartLoop o logs = none → firstPartLoop o (above k logs) = none
  | [], _ => rfl
  | (i, v) :: rest, h => by
    unfold firstPartLoop at h
    split_ifs at h with hv
    by_cases hki : k < i
    · rw [above_cons_of_lt hki, firstPartLoop, if_neg hv]
      exact firstPartLoop_above_none h
    · simp [above, hki, firstPartLoop]

/-- Every part of a descending list is at or below its first. -/
theorem le_head_of_mem {i v : Nat} {rest : LogParts} (hd : Descending ((i, v) :: rest))
    (hL : L ∈ ((i, v) :: rest).map Prod.fst) : L ≤ i := by
  rw [Descending, List.pairwise_cons] at hd
  rcases List.mem_cons.1 hL with h | h
  · exact Nat.le_of_eq h
  · obtain ⟨⟨j, w⟩, hj, rfl⟩ := List.mem_map.1 h
    exact Nat.le_of_lt (hd.1 _ hj)

/-- The walk from an open part `L` above `k` never passes `L`, so it goes
the same way over the parts above `k`. -/
theorem nextPartLoop_above :
    ∀ {logs : LogParts}, Descending logs → L ∈ logs.map Prod.fst → k < L →
      nextPartLoop L (above k logs) = nextPartLoop L logs
  | [], _, hL, _ => absurd hL List.not_mem_nil
  | (i, v) :: rest, hd, hL, hk => by
    -- `L` is the top part or comes later, below it
    have hiL := le_head_of_mem hd hL
    rw [Descending, List.pairwise_cons] at hd
    rw [above_cons_of_lt (Nat.lt_of_lt_of_le hk hiL)]
    unfold nextPartLoop
    split_ifs with h1 h2
    · rfl
    · rfl
    · have hLr : L ∈ rest.map Prod.fst := by
        rcases List.mem_cons.1 hL with h | h
        · exact absurd h.symm h2
        · exact h
      rcases rest with _ | ⟨⟨i', v'⟩, rest'⟩
      · exact absurd hLr List.not_mem_nil
      · -- the part after `i` is at or above `L`, so inside the window
        have hi'L := le_head_of_mem hd.2 hLr
        rw [above_cons_of_lt (Nat.lt_of_lt_of_le hk hi'L)]
        dsimp only
        split_ifs
        · rfl
        · rw [← above_cons_of_lt (Nat.lt_of_lt_of_le hk hi'L)]
          exact nextPartLoop_above hd.2 hLr hk

end Walks

/-! ## Readers inside a window -/

@[simp] theorem withParts_logs (lr : LogReader) (logs : LogParts) (files : List (Nat × List UInt8)) :
    (lr.withParts logs files).logs = logs := rfl

@[simp] theorem withParts_files (lr : LogReader) (logs : LogParts) (files : List (Nat × List UInt8)) :
    (lr.withParts logs files).files = files := rfl

@[simp] theorem withParts_part (lr : LogReader) (logs : LogParts) (files : List (Nat × List UInt8)) :
    (lr.withParts logs files).part = lr.part := rfl

/-- A part index of a `uint32_t` that `(int)` keeps nonnegative is kept. -/
theorem intOfKey_toNat {m : Nat} (hm : m < 2 ^ 32) (h0 : 0 ≤ intOfKey m) : (intOfKey m).toNat = m := by
  unfold intOfKey at *
  split_ifs at h0 ⊢
  · exact Int.toNat_natCast m
  · omega

variable (checksum : Bool) in
/-- `RollRLogFile` once its walk found part `i`: it opens the part `(int)i`
names if that is not negative and the directory has its file. -/
theorem rollRLogFile_eq_of_partToOpen {lr : LogReader} {i : Nat} (h : lr.partToOpen = some i) :
    LogReader.rollRLogFile checksum lr =
      if 0 ≤ intOfKey i then
        ((lr.files.lookup (intOfKey i).toNat).map fun file => (lr.openPart checksum (intOfKey i).toNat file, 0)).getD
          (lr, -1)
      else (lr, -1) := by
  -- a walk over no parts finds none
  have hne : ¬ lr.logs.length ≤ 0 := by
    intro h0
    rw [Nat.le_zero, List.length_eq_zero_iff] at h0
    unfold LogReader.partToOpen at h
    rw [h0] at h
    split at h <;> simp [firstPartLoop, nextPartLoop] at h
  unfold LogReader.rollRLogFile
  simp only [hne, if_false, h, Option.map_some, Option.getD_some, ge_iff_le]
  -- the directory has the part's file or not
  split_ifs
  · cases lr.files.lookup (intOfKey i).toNat <;> rfl
  · rfl

theorem partToOpen_mem {lr : LogReader} {m : Nat} (h : lr.partToOpen = some m) : m ∈ lr.logs.map Prod.fst := by
  unfold LogReader.partToOpen at h
  split at h
  · obtain ⟨v, hv, -⟩ := firstPartLoop_mem h
    exact List.mem_map.2 ⟨_, hv, rfl⟩
  · exact (nextPartLoop_mem h).1

variable (checksum : Bool) in
/-- On parts of `uint32_t` indexes a roll changes nothing, or opens the part
its walk found. -/
theorem rollRLogFile_opens {lr : LogReader} (hb : ∀ i ∈ lr.logs.map Prod.fst, i < 2 ^ 32) :
    (LogReader.rollRLogFile checksum lr).1 = lr ∨
      ∃ m file, lr.partToOpen = some m ∧ (LogReader.rollRLogFile checksum lr).1 = lr.openPart checksum m file := by
  cases hm : lr.partToOpen with
  | none =>
    rw [rollRLogFile_of_partToOpen_none checksum hm]
    exact Or.inl rfl
  | some m =>
    rw [rollRLogFile_eq_of_partToOpen checksum hm]
    by_cases h0 : 0 ≤ intOfKey m
    · rw [if_pos h0, intOfKey_toNat (hb m (partToOpen_mem hm)) h0]
      cases lr.files.lookup m with
      | none => exact Or.inl rfl
      | some file => exact Or.inr ⟨m, file, rfl, rfl⟩
    · rw [if_neg h0]
      exact Or.inl rfl

variable (checksum : Bool) (table0 : UInt8 → UInt32) (uncompress : CompressType → List UInt8 → Option (List UInt8)) in
/-- What every roll and every read of the open part keeps, `ReadNextRecord`
keeps. -/
theorem readNextRecord_preserves (P : LogReader → Prop)
    (hroll : ∀ lr, P lr → P (LogReader.rollRLogFile checksum lr).1)
    (hset : ∀ lr i r r', P lr → lr.part = some (i, r) → P { lr with part := some (i, r') })
    {lr : LogReader} (h : P lr) (fuel : Nat) :
    ∀ v, LogReader.readNextRecord checksum table0 uncompress fuel lr = some v → P v.1 := by
  -- a read of the open part `i`, then a roll at its end
  have hpart : ∀ lr i r, P lr → lr.part = some (i, r) →
      ∀ v, LogReader.readPart checksum table0 uncompress fuel lr i r = some v → P v.1 := by
    intro lr i r hl hp v hv
    unfold LogReader.readPart at hv
    obtain ⟨⟨r', status, record⟩, -, rfl⟩ := Option.map_eq_some_iff.1 hv
    have hs := hset lr i r r' hl hp
    dsimp only
    split
    · exact hroll _ hs
    · exact hs
  intro v hv
  unfold LogReader.readNextRecord at hv
  split at hv
  · rename_i i r hp
    exact hpart lr i r h hp v hv
  · -- the first read rolls, then reads the part it opened
    have h1 := hroll lr h
    dsimp only at hv
    split at hv
    · cases hv
      exact h1
    · rename_i i r hp
      exact hpart _ i r h1 hp v hv

/-- `lr` reads inside the parts above `k`: its open part, or the part its
first walk would find, lies above `k`, and `files` holds the files of the
parts above `k` as `lr`'s directory does. -/
structure Window (k : Nat) (files : List (Nat × List UInt8)) (lr : LogReader) : Prop where
  descending : Descending lr.logs
  bound : ∀ i ∈ lr.logs.map Prod.fst, i < 2 ^ 32
  files : ∀ i, k < i → files.lookup i = lr.files.lookup i
  part : ∀ L r, lr.part = some (L, r) → L ∈ lr.logs.map Prod.fst ∧ k < L
  first : lr.part = none → ∀ p, firstPartLoop lr.startOffset lr.logs = some p → k < p

variable {k : Nat} {files : List (Nat × List UInt8)}

theorem Window.partToOpen {lr : LogReader} (h : Window k files lr) :
    (lr.withParts (above k lr.logs) files).partToOpen = lr.partToOpen := by
  unfold LogReader.partToOpen
  simp only [withParts]
  cases hp : lr.part with
  | none =>
    cases hf : firstPartLoop lr.startOffset lr.logs with
    | none => exact firstPartLoop_above_none hf
    | some p => exact firstPartLoop_above h.descending hf (h.first hp p hf)
  | some part =>
    obtain ⟨L, r⟩ := part
    obtain ⟨hL, hk⟩ := h.part L r hp
    exact nextPartLoop_above h.descending hL hk

/-- The part a roll opens lies above `k`, among the parts. -/
theorem Window.partToOpen_mem {lr : LogReader} (h : Window k files lr) {m : Nat} (hm : lr.partToOpen = some m) :
    m ∈ lr.logs.map Prod.fst ∧ k < m := by
  unfold LogReader.partToOpen at hm
  split at hm
  · rename_i hp
    obtain ⟨v, hv, -⟩ := firstPartLoop_mem hm
    exact ⟨List.mem_map.2 ⟨_, hv, rfl⟩, h.first hp m hm⟩
  · rename_i L r hp
    obtain ⟨hmem, hLm⟩ := nextPartLoop_mem hm
    exact ⟨hmem, Nat.lt_trans (h.part L r hp).2 hLm⟩

/-- A part of the window opened, or another read of the open part, keeps the
reader inside the window. -/
theorem Window.setPart {lr : LogReader} (h : Window k files lr) {m : Nat} (hm : m ∈ lr.logs.map Prod.fst)
    (hk : k < m) (r : Reader) : Window k files { lr with part := some (m, r) } where
  descending := h.descending
  bound := h.bound
  files := h.files
  part L r' hp := by
    cases hp
    exact ⟨hm, hk⟩
  first hp := by cases hp

variable (checksum : Bool)

/-- A roll inside the window opens the same part, with the same file, and
leaves the reader inside it. -/
theorem Window.rollRLogFile {lr : LogReader} (h : Window k files lr) :
    LogReader.rollRLogFile checksum (lr.withParts (above k lr.logs) files) =
      ((LogReader.rollRLogFile checksum lr).1.withParts (above k lr.logs) files,
        (LogReader.rollRLogFile checksum lr).2) ∧
    Window k files (LogReader.rollRLogFile checksum lr).1 ∧
    (LogReader.rollRLogFile checksum lr).1.logs = lr.logs := by
  cases hm : lr.partToOpen with
  | none =>
    -- no part to open: both rolls fail and change nothing
    have hm' := h.partToOpen.trans hm
    rw [rollRLogFile_of_partToOpen_none checksum hm, rollRLogFile_of_partToOpen_none checksum hm']
    exact ⟨rfl, h, rfl⟩
  | some m =>
    obtain ⟨hmem, hk⟩ := h.partToOpen_mem hm
    have hm' := h.partToOpen.trans hm
    rw [rollRLogFile_eq_of_partToOpen checksum hm', rollRLogFile_eq_of_partToOpen checksum hm]
    by_cases h0 : 0 ≤ intOfKey m
    · -- the part is opened from the same file in both
      have hcast : (intOfKey m).toNat = m := intOfKey_toNat (h.bound m hmem) h0
      rw [if_pos h0, if_pos h0, hcast, withParts_files, h.files m hk]
      cases lr.files.lookup m with
      | none => exact ⟨rfl, h, rfl⟩
      | some file => exact ⟨rfl, h.setPart hmem hk _, rfl⟩
    · rw [if_neg h0, if_neg h0]
      exact ⟨rfl, h, rfl⟩

variable (table0 : UInt8 → UInt32) (uncompress : CompressType → List UInt8 → Option (List UInt8))

/-- A read of the open part of a reader inside the window returns the same,
and leaves the reader inside it. -/
theorem Window.readPart {lr : LogReader} (h : Window k files lr) (fuel : Nat) {i : Nat} {r : Reader}
    (hp : lr.part = some (i, r)) :
    LogReader.readPart checksum table0 uncompress fuel (lr.withParts (above k lr.logs) files) i r =
      ((LogReader.readPart checksum table0 uncompress fuel lr i r).map fun (lr', s, rec) =>
        (lr'.withParts (above k lr.logs) files, s, rec)) ∧
    ∀ v, LogReader.readPart checksum table0 uncompress fuel lr i r = some v →
      Window k files v.1 ∧ v.1.logs = lr.logs := by
  obtain ⟨hi, hk⟩ := h.part i r hp
  unfold LogReader.readPart
  cases hr : Reader.readRecord table0 uncompress fuel r with
  | none => exact ⟨rfl, fun v hv => by cases hv⟩
  | some res =>
    obtain ⟨r', status, record⟩ := res
    have hw := h.setPart hi hk r'
    simp only [Option.map_some]
    by_cases he : status = .eof
    · -- the part ended: the reader rolls, inside the window
      obtain ⟨hroll, hw', hlogs⟩ := hw.rollRLogFile checksum
      simp only [if_pos he]
      refine ⟨?_, fun v hv => ?_⟩
      · rw [show ({ lr.withParts (above k lr.logs) files with part := some (i, r') } : LogReader) =
            ({ lr with part := some (i, r') } : LogReader).withParts (above k lr.logs) files from rfl, hroll]
      · cases hv
        exact ⟨hw', hlogs⟩
    · simp only [if_neg he]
      exact ⟨rfl, fun v hv => by cases hv; exact ⟨hw, rfl⟩⟩

/-- `ReadNextRecord` inside the window returns the same, and leaves the
reader inside it. -/
theorem Window.readNextRecord {lr : LogReader} (h : Window k files lr) (fuel : Nat) :
    LogReader.readNextRecord checksum table0 uncompress fuel (lr.withParts (above k lr.logs) files) =
      ((LogReader.readNextRecord checksum table0 uncompress fuel lr).map fun (lr', s, rec) =>
        (lr'.withParts (above k lr.logs) files, s, rec)) ∧
    ∀ v, LogReader.readNextRecord checksum table0 uncompress fuel lr = some v →
      Window k files v.1 ∧ v.1.logs = lr.logs := by
  unfold LogReader.readNextRecord
  rw [withParts_part]
  cases hp : lr.part with
  | some part =>
    obtain ⟨i, r⟩ := part
    exact h.readPart checksum table0 uncompress fuel hp
  | none =>
    -- the first read rolls, inside the window, and reads the part it opened
    obtain ⟨hroll, hw, hlogs⟩ := h.rollRLogFile checksum
    rw [hroll]
    dsimp only
    rw [withParts_part]
    cases hp' : (LogReader.rollRLogFile checksum lr).1.part with
    | none =>
      refine ⟨rfl, fun v hv => ?_⟩
      cases hv
      exact ⟨hw, hlogs⟩
    | some part =>
      obtain ⟨i, r⟩ := part
      obtain ⟨hread, hkeep⟩ := hw.readPart checksum table0 uncompress fuel hp'
      rw [hlogs] at hread hkeep
      exact ⟨hread, hkeep⟩

/-- The records `n` calls of `ReadNextRecord` return, `none` where one of
them runs out of fuel. -/
def readMany (fuel : Nat) : Nat → LogReader → Option (List (Status × List UInt8))
  | 0, _ => some []
  | n + 1, lr =>
    (LogReader.readNextRecord checksum table0 uncompress fuel lr).bind fun (lr', s, rec) =>
      (readMany fuel n lr').map ((s, rec) :: ·)

/-- Every run of reads inside the window returns what it returns over all
the parts. -/
theorem Window.readMany (fuel : Nat) :
    ∀ (n : Nat) {lr : LogReader}, Window k files lr →
      LogReader.readMany checksum table0 uncompress fuel n (lr.withParts (above k lr.logs) files) =
        LogReader.readMany checksum table0 uncompress fuel n lr
  | 0, _, _ => rfl
  | n + 1, lr, h => by
    obtain ⟨hread, hkeep⟩ := h.readNextRecord checksum table0 uncompress fuel
    unfold LogReader.readMany
    rw [hread]
    cases hv : LogReader.readNextRecord checksum table0 uncompress fuel lr with
    | none => rfl
    | some v =>
      obtain ⟨lr', s, rec⟩ := v
      obtain ⟨hw, hlogs⟩ := hkeep _ hv
      simp only [Option.map_some, Option.bind_some]
      -- the reader goes on inside the window, over the same parts
      have := Window.readMany fuel n hw
      rw [hlogs] at this
      rw [this]

end LogReader

end Fedb.Log
