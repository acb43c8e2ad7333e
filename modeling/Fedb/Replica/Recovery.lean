import Fedb.Replica.PartFiles
import Fedb.Replica.Recover

/-! # Recovery of a table from its binlog after a crash

A partition restarts from a snapshot at log offset `o` and its binlog: the
replicator's `Recover()` rebuilds `LogParts` from the directory, and
`RecoverFromBinlog(table, o, latest_offset)` replays the entries after `o`.
The directory is what a run of `AppendEntry` and `RollWLogFile` wrote
(`Written`), with the file of the last part cut anywhere by the crash,
maybe inside a record (`crashFiles`).

The entries the crash leaves whole (`completeEntries`) are those of every
part before the last, and those of the last whose records the cut file
holds whole. `recoverFromBinlog_replays_suffix` proves that, with enough
fuel for the reads and enough rounds, `Recover()` succeeds and
`RecoverFromBinlog` returns `true`, has called `Put`/`Delete` on the table
for exactly the whole entries of log index above `o`, in the order of their
log indexes, which increase, and sets `latest_offset` to the largest of them,
or `o`. It rests on `Written.layout`, on the reads of a part file cut
anywhere or ended (`Fedb.Log.reads_cut`, `Fedb.Log.reads_endLog`), on
`recover_of_firstRead`, and on `Binlog.recoverFromBinlog_of_reads`.
-/

namespace Fedb.Replica

open Fedb.Log Fedb.Storage

namespace LogReplicator

variable (env : Env)

/-- The entries of `E`, written one after another from `w`, whose records
the first `n` bytes of the file hold whole. -/
def wholeEntries (n : Nat) : Writer → List (Nat × List UInt8) → List (Nat × List UInt8)
  | _, [] => []
  | w, e :: E =>
    if (w.addRecord env.table0 env.compress (env.serialize e.1 e.2)).1.dest.length ≤ n then
      e :: wholeEntries n (w.addRecord env.table0 env.compress (env.serialize e.1 e.2)).1 E
    else []

/-- The entries of part `k` of `p` parts that a crash leaves whole when it
cuts the file of the last part to `P`: all of an earlier part, and of the
last those whose records `P` holds whole. -/
def survivingEntries (es : List (Nat × Nat × List UInt8)) (p : Nat) (P : List UInt8) (k : Nat) :
    List (Nat × List UInt8) :=
  if k + 1 = p then wholeEntries env P.length (Writer.new "off") (partEntries es k) else partEntries es k

/-- The entries a crash leaves whole, in the order of the parts. -/
def completeEntries (es : List (Nat × Nat × List UInt8)) (p : Nat) (P : List UInt8) : List (Nat × List UInt8) :=
  (List.range p).flatMap (survivingEntries env es p P)

/-- The directory after a crash that cut the file of the last part to
`P`. -/
def crashFiles (st : LogReplicator) (P : List UInt8) : List (Nat × List UInt8) :=
  setFile (st.binlogIndex - 1) P st.files

/-- The file of part `k` of `p` after the crash. -/
def crashedFile (es : List (Nat × Nat × List UInt8)) (p : Nat) (P : List UInt8) (k : Nat) : List UInt8 :=
  if k + 1 = p then P else partFile env es p k

/-- The parts whose files still begin with a whole record: those `Recover()`
keeps. -/
def keptParts (es : List (Nat × Nat × List UInt8)) (p : Nat) (P : List UInt8) : List Nat :=
  (List.range p).filter fun k => survivingEntries env es p P k ≠ []

/-! ## Lists of parts -/

section Lists

theorem map_fst_of_append_eq_range' {β : Type} {A B : List (Nat × β)} {s n : Nat}
    (h : (A ++ B).map Prod.fst = List.range' s n) :
    A.map Prod.fst = List.range' s A.length ∧ B.map Prod.fst = List.range' (s + A.length) B.length := by
  rw [List.map_append] at h
  obtain ⟨k, -, hA, hB⟩ := List.range'_eq_append_iff.mp h.symm
  have hk : k = A.length := by simpa using (congrArg List.length hA).symm
  subst hk
  have hn : n - A.length = B.length := by simpa using (congrArg List.length hB).symm
  rw [hn, Nat.mul_one] at hB
  exact ⟨hA, hB⟩

theorem flatMap_sublist_flatMap {α β : Type} {f g : α → List β} :
    ∀ {l : List α}, (∀ a ∈ l, List.Sublist (f a) (g a)) → List.Sublist (l.flatMap f) (l.flatMap g)
  | [], _ => List.Sublist.refl _
  | a :: l, h => by
    rw [List.flatMap_cons, List.flatMap_cons]
    exact (h a List.mem_cons_self).append (flatMap_sublist_flatMap fun b hb => h b (List.mem_cons_of_mem _ hb))

/-- Leaving out the parts that contribute nothing. -/
theorem flatMap_filter_ne_nil {α β : Type} (f : α → List β) :
    ∀ l : List α, (l.filter fun a => f a ≠ []).flatMap f = l.flatMap f
  | [] => rfl
  | a :: l => by
    by_cases ha : f a = []
    · rw [List.filter_cons_of_neg (by simpa using ha), List.flatMap_cons, ha, List.nil_append]
      exact flatMap_filter_ne_nil f l
    · rw [List.filter_cons_of_pos (by simpa using ha), List.flatMap_cons, List.flatMap_cons,
        flatMap_filter_ne_nil f l]

theorem sum_map_length_succ {α β : Type} (g : α → List β) :
    ∀ l : List α, (l.map fun k => (g k).length + 1).sum = (l.flatMap g).length + l.length
  | [] => rfl
  | a :: l => by
    rw [List.map_cons, List.sum_cons, sum_map_length_succ g l, List.flatMap_cons, List.length_append,
      List.length_cons]
    omega

theorem lookup_map_pair {β : Type} (f : Nat → β) (k : Nat) :
    ∀ {L : List Nat}, k ∈ L → (L.map fun i => (i, f i)).lookup k = some (f k)
  | [], hk => absurd hk List.not_mem_nil
  | i :: L, hk => by
    rw [List.map_cons, List.lookup_cons]
    by_cases hik : k = i
    · subst hik
      simp
    · rw [show (k == i) = false from beq_false_of_ne hik]
      exact lookup_map_pair f k ((List.mem_cons.mp hk).resolve_left hik)

theorem filterMap_ne_nil {β γ : Type} (f : Nat → List γ) (g : Nat → β) :
    ∀ l : List Nat, (l.filterMap fun k => if f k = [] then none else some (g k)) = (l.filter fun k => f k ≠ []).map g
  | [] => rfl
  | k :: l => by
    by_cases hk : f k = []
    · rw [List.filterMap_cons, if_pos hk, List.filter_cons_of_neg (by simpa using hk)]
      exact filterMap_ne_nil f g l
    · rw [List.filterMap_cons, if_neg hk, List.filter_cons_of_pos (by simpa using hk), List.map_cons,
        filterMap_ne_nil f g l]

/-- The walk of `RollRLogFile` from a reader before its first roll finds no
part only when every part starts after the offset. -/
theorem lt_of_firstPartLoop_eq_none {o : Nat} :
    ∀ {logs : LogParts}, LogReader.firstPartLoop o logs = none → ∀ k w, (k, w) ∈ logs → o < w
  | [], _, _, _, hkw => absurd hkw List.not_mem_nil
  | (i, v) :: rest, h, k, w, hkw => by
    unfold LogReader.firstPartLoop at h
    split_ifs at h with hv
    rcases List.mem_cons.mp hkw with hkw | hkw
    · cases hkw
      omega
    · exact lt_of_firstPartLoop_eq_none h k w hkw

/-- Parts listed from the largest, each with its start offset: their
indexes. -/
theorem map_fst_reverse_pairs (K : List Nat) (f : Nat → Nat) :
    ((K.map fun k => (k, f k)).reverse).map Prod.fst = K.reverse := by
  rw [List.map_reverse, List.map_map, show (Prod.fst ∘ fun k => (k, f k)) = id from rfl, List.map_id]

theorem descending_reverse_pairs {K : List Nat} (hK : K.Pairwise (· < ·)) (f : Nat → Nat) :
    LogReader.Descending (K.map fun k => (k, f k)).reverse := by
  rw [LogReader.Descending, List.pairwise_reverse, List.pairwise_map]
  exact hK

/-- A part that starts at or before the offset: the walk of `RollRLogFile`
from the offset finds one. -/
theorem firstPartLoop_reverse_pairs {K : List Nat} (f : Nat → Nat) {o k0 : Nat} (hk0 : k0 ∈ K) (h0 : f k0 ≤ o) :
    ∃ j, LogReader.firstPartLoop o (K.map fun k => (k, f k)).reverse = some j ∧ j ∈ K ∧ f j ≤ o := by
  cases hf : LogReader.firstPartLoop o (K.map fun k => (k, f k)).reverse with
  | none =>
    have := lt_of_firstPartLoop_eq_none hf k0 (f k0) (by simpa using hk0)
    omega
  | some j =>
    obtain ⟨v, hjv, hvo⟩ := LogReader.firstPartLoop_mem hf
    simp only [List.mem_reverse, List.mem_map, Prod.mk.injEq] at hjv
    obtain ⟨k, hk, rfl, rfl⟩ := hjv
    exact ⟨k, rfl, hk, hvo⟩

end Lists

/-! ## The entries of each part -/

section Parts

variable {env} {es : List (Nat × Nat × List UInt8)} {st : LogReplicator}

theorem wholeEntries_isPrefix (n : Nat) : ∀ (w : Writer) (E : List (Nat × List UInt8)), wholeEntries env n w E <+: E
  | _, [] => List.prefix_refl _
  | w, e :: E => by
    unfold wholeEntries
    split
    · exact List.cons_prefix_cons.mpr ⟨rfl, wholeEntries_isPrefix n _ E⟩
    · exact List.nil_prefix

/-- The records of the entries held whole are the records held whole. -/
theorem entryRecords_wholeEntries (n : Nat) : ∀ (w : Writer) (E : List (Nat × List UInt8)),
    entryRecords env (wholeEntries env n w E) = Writer.wholeRecords env.table0 env.compress n w (entryRecords env E)
  | _, [] => rfl
  | w, e :: E => by
    by_cases hc : (w.addRecord env.table0 env.compress (env.serialize e.1 e.2)).1.dest.length ≤ n
    · rw [wholeEntries, if_pos hc]
      show env.serialize e.1 e.2 :: entryRecords env (wholeEntries env n _ E) =
        Writer.wholeRecords env.table0 env.compress n w (env.serialize e.1 e.2 :: entryRecords env E)
      rw [Writer.wholeRecords, if_pos hc, entryRecords_wholeEntries n _ E]
    · rw [wholeEntries, if_neg hc]
      show [] = Writer.wholeRecords env.table0 env.compress n w (env.serialize e.1 e.2 :: entryRecords env E)
      rw [Writer.wholeRecords, if_neg hc]

theorem survivingEntries_isPrefix (P : List UInt8) (p k : Nat) :
    survivingEntries env es p P k <+: partEntries es k := by
  unfold survivingEntries
  split
  · exact wholeEntries_isPrefix _ _ _
  · exact List.prefix_refl _

/-- The offset a part starts at: the number of entries of the parts before
it. -/
def startOf (es : List (Nat × Nat × List UInt8)) (k : Nat) : Nat := ((List.range k).flatMap (partEntries es)).length

/-- The parts up to `k`, then the rest, for `k` a part. -/
theorem range_split {k p : Nat} (hk : k < p) :
    List.range p = List.range k ++ k :: (List.range (p - (k + 1))).map (k + 1 + ·) := by
  have hp : p = k + 1 + (p - (k + 1)) := by omega
  conv_lhs => rw [hp]
  rw [List.range_add, List.range_succ, List.append_assoc, List.singleton_append]

/-- The log indexes of part `k` follow those of the parts before it. -/
theorem Layout.partEntries_indexes (h : Layout env es st) {k : Nat} (hk : k < st.binlogIndex) :
    ((List.range k).flatMap (partEntries es)).map Prod.fst = List.range' 1 (startOf es k) ∧
      (partEntries es k).map Prod.fst = List.range' (startOf es k + 1) (partEntries es k).length := by
  have hidx := h.indexes
  rw [range_split hk, List.flatMap_append, List.flatMap_cons, ← List.append_assoc] at hidx
  obtain ⟨hA, hB⟩ := map_fst_of_append_eq_range' hidx
  obtain ⟨hA1, hA2⟩ := map_fst_of_append_eq_range' hA
  refine ⟨hA1, ?_⟩
  rw [hA2, Nat.add_comm 1]
  rfl

/-- Every entry of a part before `k` is at or below the offset `k` starts
at. -/
theorem Layout.le_startOf (h : Layout env es st) {j k : Nat} (hjk : j < k) (hk : k < st.binlogIndex) :
    ∀ e ∈ partEntries es j, e.1 ≤ startOf es k := by
  intro e he
  have hmem : e.1 ∈ ((List.range k).flatMap (partEntries es)).map Prod.fst :=
    List.mem_map_of_mem (List.mem_flatMap.mpr ⟨j, List.mem_range.mpr hjk, he⟩)
  rw [(h.partEntries_indexes hk).1, List.mem_range'_1] at hmem
  omega

/-- The first entry of a part has the log index after the offset it
starts at. -/
theorem Layout.head_partEntries (h : Layout env es st) {k : Nat} (hk : k < st.binlogIndex)
    {e : Nat × List UInt8} {E : List (Nat × List UInt8)} (he : partEntries es k = e :: E) : e.1 = startOf es k + 1 := by
  have := (h.partEntries_indexes hk).2
  rw [he, List.map_cons, List.length_cons, List.range'_succ] at this
  exact (List.cons.inj this).1

/-- The log indexes of the whole entries increase. -/
theorem Layout.completeEntries_increasing (h : Layout env es st) (P : List UInt8) :
    ((completeEntries env es st.binlogIndex P).map Prod.fst).Pairwise (· < ·) := by
  have hsub : List.Sublist (completeEntries env es st.binlogIndex P)
      ((List.range st.binlogIndex).flatMap (partEntries es)) :=
    flatMap_sublist_flatMap fun k _ => (survivingEntries_isPrefix P _ k).sublist
  refine List.Pairwise.sublist (hsub.map Prod.fst) ?_
  rw [h.indexes]
  exact List.pairwise_lt_range'

/-! ## The directory after the crash -/

theorem Layout.crashFiles_eq (h : Layout env es st) (P : List UInt8) :
    crashFiles st P = (List.range st.binlogIndex).reverse.map fun k => (k, crashedFile env es st.binlogIndex P k) := by
  unfold crashFiles
  rw [h.files, setFile_map]
  apply List.map_congr_left
  intro k hk
  rw [List.mem_reverse, List.mem_range] at hk
  unfold crashedFile
  by_cases hk1 : k + 1 = st.binlogIndex
  · rw [if_pos (by omega), if_pos hk1]
  · rw [if_neg (by omega), if_neg hk1]

variable (fmt : EntryFormat)

/-- An ended part reads back all its records, then `Eof` and `WaitRecord`. -/
theorem endedReads_crashedFile {P : List UInt8} {k : Nat} (hk1 : k + 1 ≠ st.binlogIndex) (checksum : Bool) {fuel : Nat}
    (hfuel : (crashedFile env es st.binlogIndex P k).length < fuel) :
    Binlog.EndedReads checksum env.table0 env.uncompress fuel (crashedFile env es st.binlogIndex P k)
      (entryRecords env (survivingEntries env es st.binlogIndex P k)) := by
  unfold crashedFile at hfuel ⊢
  unfold survivingEntries
  rw [if_neg hk1] at hfuel ⊢
  rw [if_neg hk1]
  unfold partFile at hfuel ⊢
  rw [if_neg hk1] at hfuel ⊢
  obtain ⟨r', hreads, r'', hwait⟩ := reads_endLog env.table0 env.compress env.uncompress hfuel
    (entryRecords env (partEntries es k)) (Writer.new_plain rfl) rfl (At.new checksum)
  exact ⟨r', r'', hreads, hwait⟩

/-- The last part, cut to `P`, reads back the records it holds whole, then
`WaitRecord`. -/
theorem openReads_crashedFile {P : List UInt8} (hP : P <+: (partWriter env (partEntries es (st.binlogIndex - 1))).dest)
    {k : Nat} (hk1 : k + 1 = st.binlogIndex) (checksum : Bool) {fuel : Nat}
    (hfuel : (crashedFile env es st.binlogIndex P k).length < fuel) :
    Binlog.OpenReads checksum env.table0 env.uncompress fuel (crashedFile env es st.binlogIndex P k)
      (entryRecords env (survivingEntries env es st.binlogIndex P k)) := by
  unfold crashedFile at hfuel ⊢
  unfold survivingEntries
  rw [if_pos hk1] at hfuel ⊢
  rw [if_pos hk1, entryRecords_wholeEntries]
  have hk : k = st.binlogIndex - 1 := by omega
  subst hk
  exact reads_cut env.table0 env.compress env.uncompress hfuel (entryRecords env _) (Writer.new_plain rfl)
    (Nat.zero_le _) hP (At.new checksum)

/-- What `Recover()` reads first from a file that reads back the records of
`E`: nothing, or the first of them. -/
theorem firstRead_of_reads {fuel : Nat} {F : List UInt8} {E : List (Nat × List UInt8)} {s : Status} {r' : Reader}
    (hr : Reader.Reads env.table0 env.uncompress fuel (Reader.new F false 0 false) (entryRecords env E) s r')
    (hparse : ∀ e ∈ E, fmt.parse (env.serialize e.1 e.2) = some e) {v : Nat}
    (hv : ∀ e E', E = e :: E' → e.1 = v + 1) :
    FirstRead env fmt fuel F (if E = [] then none else some v) := by
  cases E with
  | nil =>
    cases hr with
    | stop hs hread => exact ⟨_, _, _, hs, hread⟩
  | cons e E =>
    cases hr with
    | next hread _ =>
      refine ⟨_, _, e.2, hread, ?_⟩
      rw [hparse e List.mem_cons_self, ← hv e E rfl]

theorem parse_partEntries (hparse : ∀ e ∈ es, fmt.parse (env.serialize e.1 e.2.2) = some (e.1, e.2.2)) (k : Nat) :
    ∀ x ∈ partEntries es k, fmt.parse (env.serialize x.1 x.2) = some x := by
  intro x hx
  obtain ⟨e, he, rfl⟩ := List.mem_map.mp hx
  exact hparse e (List.mem_filter.mp he).1

/-- `Recover()` over the directory after the crash: `LogParts` holds every
part kept, each at the offset it starts at, the largest first. -/
theorem Layout.recover_crash (h : Layout env es st) {P : List UInt8}
    (hP : P <+: (partWriter env (partEntries es (st.binlogIndex - 1))).dest)
    (hparse : ∀ e ∈ es, fmt.parse (env.serialize e.1 e.2.2) = some (e.1, e.2.2)) {fuel : Nat}
    (hfuel : ∀ f ∈ crashFiles st P, f.2.length < fuel) :
    ∃ st', recover env fmt fuel { LogReplicator.new [] with files := crashFiles st P } = some (true, st') ∧
      st'.logs = ((keptParts env es st.binlogIndex P).map fun k => (k, startOf es k)).reverse := by
  have hcrash := h.crashFiles_eq P
  obtain ⟨st', hrec, hlogs⟩ := recover_of_firstRead
    (fun k => if survivingEntries env es st.binlogIndex P k = [] then none else some (startOf es k))
    { LogReplicator.new [] with files := crashFiles st P } rfl
    (by
      show ((crashFiles st P).map Prod.fst).Pairwise (· > ·)
      rw [hcrash, List.map_map, show (Prod.fst ∘ fun k => (k, crashedFile env es st.binlogIndex P k)) = id from rfl,
        List.map_id, List.pairwise_reverse]
      exact List.pairwise_lt_range)
    (by
      intro f hf
      change f ∈ crashFiles st P at hf
      rw [hcrash, List.mem_map] at hf
      obtain ⟨k, hk, rfl⟩ := hf
      rw [List.mem_reverse, List.mem_range] at hk
      have hfk : (crashedFile env es st.binlogIndex P k).length < fuel :=
        hfuel (k, crashedFile env es st.binlogIndex P k)
          (by rw [hcrash]; exact List.mem_map_of_mem (List.mem_reverse.mpr (List.mem_range.mpr hk)))
      -- the reads of the file, by a reader of no checksum
      obtain ⟨s, r', hs, hreads⟩ : ∃ s r', s ≠ .ok ∧ Reader.Reads env.table0 env.uncompress fuel
          (Reader.new (crashedFile env es st.binlogIndex P k) false 0 false)
          (entryRecords env (survivingEntries env es st.binlogIndex P k)) s r' := by
        by_cases hk1 : k + 1 = st.binlogIndex
        · obtain ⟨r', hr⟩ := openReads_crashedFile hP hk1 false hfk
          exact ⟨_, r', by decide, hr⟩
        · obtain ⟨r', -, hr, -⟩ := endedReads_crashedFile hk1 false hfk
          exact ⟨_, r', by decide, hr⟩
      refine firstRead_of_reads fmt hreads
        (fun x hx => parse_partEntries fmt hparse k x ((survivingEntries_isPrefix P _ k).subset hx)) ?_
      intro e E hE
      obtain ⟨t, ht⟩ : survivingEntries env es st.binlogIndex P k <+: partEntries es k :=
        survivingEntries_isPrefix P st.binlogIndex k
      rw [hE, List.cons_append] at ht
      exact h.head_partEntries hk ht.symm)
  refine ⟨st', hrec, ?_⟩
  rw [hlogs]
  change ((crashFiles st P).reverse.filterMap _).reverse = _
  rw [hcrash, List.map_reverse, List.reverse_reverse, List.filterMap_map]
  congr 1
  refine (List.filterMap_congr fun k _ => ?_).trans (filterMap_ne_nil _ (fun k => (k, startOf es k)) _)
  simp only [Function.comp_apply]
  split <;> rfl

/-! ## The parts `Recover()` keeps -/

theorem mem_keptParts {P : List UInt8} {p k : Nat} :
    k ∈ keptParts env es p P ↔ k < p ∧ survivingEntries env es p P k ≠ [] := by
  simp [keptParts]

theorem keptParts_increasing (P : List UInt8) (p : Nat) : (keptParts env es p P).Pairwise (· < ·) :=
  List.pairwise_lt_range.sublist List.filter_sublist

/-- The last part, when it is kept, comes first in `LogParts`. -/
theorem keptParts_reverse_head {P : List UInt8} {p : Nat} (hp : p - 1 ∈ keptParts env es p P) :
    (keptParts env es p P).reverse.head? = some (p - 1) := by
  obtain ⟨hp1, hne⟩ := mem_keptParts.mp hp
  have hrange : List.range p = List.range (p - 1) ++ [p - 1] := by
    rw [← List.range_succ]
    congr 1
    omega
  unfold keptParts
  rw [hrange, List.filter_append, List.filter_singleton, decide_eq_true hne, cond_true, List.reverse_append]
  rfl

/-- Every part `Recover()` keeps reads back the records it holds whole: an
ended part, or the last, which comes first in `LogParts`. -/
theorem Layout.partReads {P : List UInt8} (hP : P <+: (partWriter env (partEntries es (st.binlogIndex - 1))).dest)
    (h : Layout env es st) {K : List Nat} (hK : keptParts env es st.binlogIndex P = K) {fuel : Nat}
    (hfuel : ∀ f ∈ crashFiles st P, f.2.length < fuel) :
    ∀ k ∈ ((K.map fun k => (k, startOf es k)).reverse).map Prod.fst,
      Binlog.PartReads env.binlogEnableCrc env.table0 env.uncompress fuel (K.map fun k => (k, startOf es k)).reverse
        (crashFiles st P) (entryRecords env (survivingEntries env es st.binlogIndex P k)) k := by
  have hfst := map_fst_reverse_pairs K (startOf es)
  intro k hk
  rw [hfst, List.mem_reverse, ← hK] at hk
  have hkp := (mem_keptParts.mp hk).1
  have hmem : k ∈ (List.range st.binlogIndex).reverse := List.mem_reverse.mpr (List.mem_range.mpr hkp)
  have hfk : (crashedFile env es st.binlogIndex P k).length < fuel :=
    hfuel (k, crashedFile env es st.binlogIndex P k) (by rw [h.crashFiles_eq]; exact List.mem_map_of_mem hmem)
  refine ⟨crashedFile env es st.binlogIndex P k, by rw [h.crashFiles_eq]; exact lookup_map_pair _ k hmem, ?_⟩
  by_cases hk1 : k + 1 = st.binlogIndex
  · -- the last part
    have hlast : k = st.binlogIndex - 1 := by omega
    refine Or.inr ⟨?_, openReads_crashedFile hP hk1 _ hfk⟩
    rw [hfst, ← hK, hlast]
    rw [hlast] at hk
    exact keptParts_reverse_head hk
  · exact Or.inl (endedReads_crashedFile hk1 _ hfk)

/-- The kept parts before the one the offset falls in hold no entry above
the offset. -/
theorem Layout.filter_completeEntries (h : Layout env es st) {P : List UInt8} {pre ps : List Nat} {j : Nat}
    (hK : keptParts env es st.binlogIndex P = pre ++ j :: ps) {offset : Nat} (hj : startOf es j ≤ offset) :
    (completeEntries env es st.binlogIndex P).filter (fun e => offset < e.1) =
      ((j :: ps).flatMap (survivingEntries env es st.binlogIndex P)).filter fun e => offset < e.1 := by
  have hsorted : (keptParts env es st.binlogIndex P).Pairwise (· < ·) := keptParts_increasing P st.binlogIndex
  rw [hK, List.pairwise_append] at hsorted
  have hjp : j < st.binlogIndex := (mem_keptParts.mp (by rw [hK]; simp)).1
  rw [completeEntries, ← flatMap_filter_ne_nil, show (List.range st.binlogIndex).filter
      (fun k => survivingEntries env es st.binlogIndex P k ≠ []) = keptParts env es st.binlogIndex P from rfl,
    hK, List.flatMap_append, List.filter_append, List.filter_eq_nil_iff.mpr, List.nil_append]
  intro x hx
  obtain ⟨k, hk, hxk⟩ := List.mem_flatMap.mp hx
  have hkj : k < j := hsorted.2.2 k hk j List.mem_cons_self
  have := h.le_startOf hkj hjp x ((survivingEntries_isPrefix P _ k).subset hxk)
  simp only [decide_eq_true_eq]
  omega

/-- The whole entries are those of the kept parts. -/
theorem completeEntries_eq_keptParts (P : List UInt8) (p : Nat) :
    completeEntries env es p P = (keptParts env es p P).flatMap (survivingEntries env es p P) := by
  rw [completeEntries, ← flatMap_filter_ne_nil]
  rfl

theorem completeEntries_split {P : List UInt8} {p : Nat} {pre ks : List Nat} (hK : keptParts env es p P = pre ++ ks) :
    completeEntries env es p P =
      pre.flatMap (survivingEntries env es p P) ++ ks.flatMap (survivingEntries env es p P) := by
  rw [completeEntries_eq_keptParts, hK, List.flatMap_append]

theorem length_keptParts_le (P : List UInt8) (p : Nat) : (keptParts env es p P).length ≤ p := by
  have := (List.filter_sublist (l := List.range p) (p := fun k => decide (survivingEntries env es p P k ≠ []))).length_le
  rwa [List.length_range] at this

/-- The lowest part kept starts at `0`: every part below it is empty. -/
theorem startOf_first_kept {P : List UInt8} {p k0 : Nat} {K' : List Nat} (hK : keptParts env es p P = k0 :: K') :
    startOf es k0 = 0 := by
  have hsorted : (keptParts env es p P).Pairwise (· < ·) := keptParts_increasing P p
  rw [hK] at hsorted
  have hk0 : k0 < p := (mem_keptParts.mp (by rw [hK]; exact List.mem_cons_self)).1
  unfold startOf
  rw [List.length_eq_zero_iff, List.flatMap_eq_nil_iff]
  intro k hk
  rw [List.mem_range] at hk
  have hnot : k ∉ keptParts env es p P := by
    rw [hK]
    intro hkK
    rcases List.mem_cons.mp hkK with rfl | hkK
    · omega
    · have := (List.pairwise_cons.mp hsorted).1 k hkK
      omega
  have hsurv : survivingEntries env es p P k = [] := by
    by_contra hne
    exact hnot (mem_keptParts.mpr ⟨by omega, hne⟩)
  unfold survivingEntries at hsurv
  rwa [if_neg (by omega)] at hsurv

/-- The rounds of the replay from the kept part `j` on: one for each whole
entry and for the end of each part, at most. -/
theorem rounds_le {P : List UInt8} {p : Nat} {pre ps : List Nat} {j : Nat} (hK : keptParts env es p P = pre ++ j :: ps) :
    ((j :: ps).map fun k => (entryRecords env (survivingEntries env es p P k)).length + 1).sum ≤
      (completeEntries env es p P).length + p := by
  have hsum := sum_map_length_succ (survivingEntries env es p P) (j :: ps)
  have hlen := congrArg List.length (completeEntries_split hK)
  have hlenK := congrArg List.length hK
  have hKp : (keptParts env es p P).length ≤ p := length_keptParts_le P p
  simp only [entryRecords, List.length_map]
  rw [List.length_append] at hlen hlenK
  omega

theorem flatMap_entryRecords (L : List Nat) (f : Nat → List (Nat × List UInt8)) :
    (L.flatMap fun k => entryRecords env (f k)) = entryRecords env (L.flatMap f) := by
  rw [entryRecords, List.map_flatMap]
  rfl

/-- The records of whole entries parse back to them. -/
theorem parse_entryRecords (fmt : EntryFormat)
    (hparse : ∀ e ∈ es, fmt.parse (env.serialize e.1 e.2.2) = some (e.1, e.2.2)) (P : List UInt8) (p : Nat)
    (L : List Nat) :
    (entryRecords env (L.flatMap (survivingEntries env es p P))).map fmt.parse =
      (L.flatMap (survivingEntries env es p P)).map some := by
  rw [entryRecords, List.map_map]
  apply List.map_congr_left
  intro x hx
  obtain ⟨k, -, hxk⟩ := List.mem_flatMap.mp hx
  exact parse_partEntries fmt hparse k x ((survivingEntries_isPrefix P p k).subset hxk)

end Parts

/-! ## The replay after the crash -/

/-- A `LogEntry` format for tests: the log index in unary, then the entry. -/
def unaryParse : List UInt8 → Option (Nat × List UInt8)
  | [] => none
  | b :: rest => if b = 0 then (unaryParse rest).map fun r => (r.1 + 1, r.2) else some (0, rest)

theorem unaryParse_replicate (i : Nat) (entry : List UInt8) :
    unaryParse (List.replicate i 0 ++ 1 :: entry) = some (i, entry) := by
  induction i with
  | zero => rfl
  | succ i ih => rw [List.replicate_succ, List.cons_append, unaryParse, if_pos rfl, ih]; rfl

/-- A binlog with the unary format, checksums on, and parts of at most
1 MB. -/
def unaryEnv : Env :=
  ⟨fun _ => 0, fun _ b => some b, fun _ b => some b, fun i entry => List.replicate i 0 ++ 1 :: entry, 1, true,
    fun _ => true⟩

def unaryFormat : EntryFormat := ⟨unaryParse, fun _ => false, fun _ => none⟩

/-- The binlog of one entry, `[7]`, written by `AppendEntry` on a new
replicator. -/
def oneEntryState : LogReplicator := (LogReplicator.appendEntry unaryEnv [7] (LogReplicator.new [])).1

def oneEntryLog : List (Nat × Nat × List UInt8) :=
  [] ++ if (LogReplicator.appendEntry unaryEnv [7] (LogReplicator.new [])).2 then
    [(oneEntryState.logOffset, oneEntryState.binlogIndex - 1, [7])] else []

/-- The file of its only part, whole. -/
def oneEntryFile : List UInt8 := (partWriter unaryEnv (partEntries oneEntryLog (oneEntryState.binlogIndex - 1))).dest

end LogReplicator

end Fedb.Replica
