import Fedb.Storage.Binlog
import Fedb.Replica.DeleteBinlog

/-! # `LogReplicator::Recover`: `LogParts` from the binlog directory

`Recover()` (`src/replica/log_replicator.cc`) rebuilds `LogParts` from the
binlog directory of a partition when the partition starts. It lists the
files, sorts their names, and reads the first record of each with a `Reader`
of no checksum: a file whose first record does not read is skipped, and a
file whose record parses joins `LogParts` with the log index of that record
less one as its start offset, and sets `binlog_index_` past it. A record
that does not parse, or of log index `0`, ends `Recover()` with `false`.

The names are `FormatToString(index, FLAGS_binlog_name_length)`, which
`ParseBinlogIndex` reads back, so the model lists the files by index and the
sort of the names is the sort of the indexes. `fopen` does not fail.

`recoverLoop_of_firstRead` says what the loop builds from what the first
read of each file gives, and `recover_of_firstRead` the same of `Recover()`
on a directory listed from its largest index, as `RollWLogFile` adds files.
-/

namespace Fedb.Replica

open Fedb.Log Fedb.Base Fedb.Storage

namespace LogReplicator

variable (env : Env) (fmt : EntryFormat)

/-- The loop of `Recover()` over the files in the order of their names, the
first record of each read with `fuel`; the first component is what
`Recover()` returns, and `none` a read that runs out of fuel. -/
def recoverLoop (fuel : Nat) : List (Nat × List UInt8) → LogReplicator → Option (Bool × LogReplicator)
  | [], st => some (true, st)
  | (i, file) :: rest, st =>
    match Reader.readRecord env.table0 env.uncompress fuel (Reader.new file false 0 false) with
    | none => none
    | some (_, status, record) =>
      -- fail to get offset from file
      if status ≠ .ok then recoverLoop fuel rest st
      else
        match fmt.parse record with
        | none => some (false, st)
        | some (logIndex, _) =>
          if logIndex ≤ 0 then some (false, st)
          else
            recoverLoop fuel rest
              { st with
                logs := Chain.insert Prod.fst partComparator (i, logIndex - 1) st.logs
                binlogIndex := i + 1 }

/-- `Recover()`: the loop over the files of the directory, sorted. -/
def recover (fuel : Nat) (st : LogReplicator) : Option (Bool × LogReplicator) :=
  if st.files.length ≤ 0 then some (true, st)
  else recoverLoop env fmt fuel (st.files.mergeSort fun a b => decide (a.1 ≤ b.1)) st

/-! ## The directory in the order of its names -/

/-- A directory listed from its largest index, as `RollWLogFile` adds
files, sorts into the reverse order. -/
theorem mergeSort_of_descending {α : Type} {files : List (Nat × α)} (h : (files.map Prod.fst).Pairwise (· > ·)) :
    files.mergeSort (fun a b => decide (a.1 ≤ b.1)) = files.reverse := by
  have hnodup : (files.map Prod.fst).Nodup := h.imp (fun hab => Nat.ne_of_gt hab)
  have hsorted : files.reverse.Pairwise fun a b => decide (a.1 ≤ b.1) = true := by
    rw [List.pairwise_reverse]
    exact (List.pairwise_map.mp h).imp fun hab => by simpa using Nat.le_of_lt hab
  refine List.Perm.eq_of_pairwise ?_ (List.pairwise_mergeSort ?_ ?_ files) hsorted
    ((List.mergeSort_perm files _).trans (List.reverse_perm files).symm)
  · -- two files of one index are one file
    intro a b ha hb hab hba
    have ha' := (List.mergeSort_perm files _).subset ha
    have hb' := List.mem_reverse.mp hb
    exact List.inj_on_of_nodup_map hnodup ha' hb' (Nat.le_antisymm (by simpa using hab) (by simpa using hba))
  · intro a b c hab hbc
    simp only [decide_eq_true_eq] at hab hbc ⊢
    omega
  · intro a b
    simp only [Bool.or_eq_true, decide_eq_true_eq]
    omega

/-! ## The first record of each file -/

section Loop

variable {env fmt} {fuel : Nat}

variable (env fmt) in
/-- What `Recover()` reads from the start of `file`: no record, for `none`,
or one of log index `v + 1`, which starts its part at `v`. -/
def FirstRead (fuel : Nat) (file : List UInt8) : Option Nat → Prop
  | none => ∃ r s record, s ≠ .ok ∧
      Reader.readRecord env.table0 env.uncompress fuel (Reader.new file false 0 false) = some (r, s, record)
  | some v => ∃ r record entry,
      Reader.readRecord env.table0 env.uncompress fuel (Reader.new file false 0 false) = some (r, .ok, record) ∧
        fmt.parse record = some (v + 1, entry)

/-- `Recover()`'s loop over files of increasing index whose first records
read as `first` says: every file with a start offset joins `LogParts`, in
front of those before it. -/
theorem recoverLoop_of_firstRead (first : Nat → Option Nat) :
    ∀ (files : List (Nat × List UInt8)) (st : LogReplicator), (files.map Prod.fst).Pairwise (· < ·) →
      (∀ f ∈ files, ∀ p ∈ st.logs, p.1 < f.1) → (∀ f ∈ files, FirstRead env fmt fuel f.2 (first f.1)) →
      ∃ st', recoverLoop env fmt fuel files st = some (true, st') ∧
        st'.logs = (files.filterMap fun f => (first f.1).map fun v => (f.1, v)).reverse ++ st.logs
  | [], st, _, _, _ => ⟨st, rfl, rfl⟩
  | (i, file) :: rest, st, hsort, habove, hread => by
    rw [List.map_cons, List.pairwise_cons] at hsort
    have hread_i := hread (i, file) List.mem_cons_self
    have hrest : ∀ f ∈ rest, FirstRead env fmt fuel f.2 (first f.1) := fun f hf => hread f (List.mem_cons_of_mem _ hf)
    have hlater : ∀ f ∈ rest, i < f.1 := fun f hf => hsort.1 f.1 (List.mem_map_of_mem hf)
    cases hfirst : first i with
    | none =>
      -- the file is skipped
      rw [hfirst] at hread_i
      obtain ⟨r, s, record, hs, hrr⟩ := hread_i
      obtain ⟨st', hloop, hlogs⟩ := recoverLoop_of_firstRead first rest st hsort.2
        (fun f hf => habove f (List.mem_cons_of_mem _ hf)) hrest
      refine ⟨st', ?_, ?_⟩
      · rw [recoverLoop, hrr]
        simp only [if_pos hs, hloop]
      · rw [hlogs, List.filterMap_cons, hfirst]
        rfl
    | some v =>
      -- the part `i` joins `LogParts` with the start offset `v`, above every part there
      rw [hfirst] at hread_i
      obtain ⟨r, record, entry, hrr, hparse⟩ := hread_i
      have hins : Chain.insert Prod.fst partComparator (i, v + 1 - 1) st.logs = (i, v) :: st.logs :=
        insert_parts (fun p hp => habove (i, file) List.mem_cons_self p hp) v
      obtain ⟨st', hloop, hlogs⟩ := recoverLoop_of_firstRead first rest
        { st with logs := (i, v) :: st.logs, binlogIndex := i + 1 } hsort.2
        (fun f hf p hp => by
          rcases List.mem_cons.mp hp with rfl | hp
          · exact hlater f hf
          · exact habove f (List.mem_cons_of_mem _ hf) p hp) hrest
      refine ⟨st', ?_, ?_⟩
      · rw [recoverLoop, hrr]
        simp only [ne_eq, not_true_eq_false, if_false, hparse, Nat.add_one_le_iff, Nat.not_lt_zero, hins, hloop]
      · rw [hlogs, List.filterMap_cons, hfirst]
        simp

/-- `Recover()` on a directory listed from its largest index, each first
record read as `first` says: `LogParts` holds the parts with a start offset,
the largest first. -/
theorem recover_of_firstRead (first : Nat → Option Nat) (st : LogReplicator) (hlogs : st.logs = [])
    (hsort : (st.files.map Prod.fst).Pairwise (· > ·))
    (hread : ∀ f ∈ st.files, FirstRead env fmt fuel f.2 (first f.1)) :
    ∃ st', recover env fmt fuel st = some (true, st') ∧
      st'.logs = (st.files.reverse.filterMap fun f => (first f.1).map fun v => (f.1, v)).reverse := by
  unfold recover
  split
  · -- an empty directory
    rename_i h0
    rw [Nat.le_zero, List.length_eq_zero_iff] at h0
    exact ⟨st, rfl, by rw [hlogs, h0]; rfl⟩
  · rw [mergeSort_of_descending hsort]
    obtain ⟨st', hloop, hlogs'⟩ := recoverLoop_of_firstRead first st.files.reverse st
      (by rw [List.map_reverse, List.pairwise_reverse]; exact hsort)
      (by rw [hlogs]; intro f _ p hp; cases hp)
      (fun f hf => hread f (List.mem_reverse.mp hf))
    exact ⟨st', hloop, by rw [hlogs', hlogs, List.append_nil]⟩

end Loop

end LogReplicator

end Fedb.Replica
