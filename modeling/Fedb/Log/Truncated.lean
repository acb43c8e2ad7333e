import Fedb.Log.RoundTrip

/-! # Reading a log cut short

A crash can leave the file of a log cut anywhere, inside a record too. What
`Reader` reads of such a file is what the file holds whole: the records in
order, and then `WaitRecord` where the file ends, inside a trailer, a header
or a payload; the record cut short is never returned (`reads_cut`). An
ended log reads its records, then `Eof`, and then `WaitRecord`
(`reads_endLog`).

The proof follows `RoundTrip`: a round of the writer cut short leaves the
reader a block with less than a header, or a header whose length runs past
the file (`At.round_cut`), and `ReadRecord`'s loop follows the rounds of
`AddRecord` that the file holds whole until it meets the cut one
(`readRecordLoop_addRecordLoop_cut`).
-/

namespace Fedb.Log

open ByteBuffer

namespace Reader

variable (table0 : UInt8 → UInt32)

/-- The bytes before `n` of a list cut at `n` are its own. -/
theorem byteAt_take {l : List UInt8} {n i : Nat} (h : i < n) : byteAt (l.take n) i = byteAt l i := by
  simp only [byteAt, List.getD_eq_getElem?_getD, List.getElem?_take_of_lt h]

/-- A whole header with its payload cut short: the length it holds runs past
the buffer, and the reader waits for the rest. -/
theorem parse_cut {r : Reader} (hc : r.compressed = false) {w : Writer} (hw : w.compressType = .kNoCompress)
    {t : RecordType} {payload : List UInt8} {n : Nat} (hb : r.buffer = (w.physicalRecord table0 t payload).take n)
    (h7 : kHeaderSize ≤ n) (hn : n < kHeaderSize + payload.length) (hp : payload.length < 2 ^ 16) :
    parse table0 r = (r, kWaitRecord, []) := by
  have hR : (w.physicalRecord table0 t payload).length = kHeaderSize + payload.length :=
    Writer.length_physicalRecord table0 hw t payload
  have hH : r.headerSize = kHeaderSize := by simp [headerSize, hc]
  have hlen : r.lengthOf r.buffer = payload.length := by
    have h4 := Writer.byteAt_physicalRecord_header table0 hw t payload (i := 4) (by decide) (by decide)
    have h5 := Writer.byteAt_physicalRecord_header table0 hw t payload (i := 5) (by decide) (by decide)
    unfold kHeaderSize at h7
    simp only [lengthOf, hc, Bool.false_eq_true, not_false_eq_true, if_true]
    rw [hb, ← byteAt, ← byteAt, byteAt_take (by omega), byteAt_take (by omega), h4, h5,
      Writer.byteAt_formatHeader_length_low hw, Writer.byteAt_formatHeader_length_high hw, length_bytes hp]
  have hshort : (r.headerSize + r.lengthOf r.buffer) % 2 ^ 32 > r.buffer.length := by
    rw [hlen, hH, hb, List.length_take, hR, Nat.mod_eq_of_lt (by unfold kHeaderSize; omega)]
    omega
  unfold parse
  exact if_pos hshort

end Reader

namespace At

variable (table0 : UInt8 → UInt32) (compress : CompressType → List UInt8 → Option (List UInt8))
  (uncompress : CompressType → List UInt8 → Option (List UInt8)) {F : List UInt8} {q : Nat} {r : Reader}

/-- Less than a header left in the file, which ends inside `q`'s block:
nothing to read yet. -/
theorem readPhysicalRecord_short_end (h : At F q r) (hF : F.length < q + kHeaderSize)
    (hblock : F.length ≤ q - q % kBlockSize + kBlockSize) :
    ∃ r' off, Reader.readPhysicalRecord table0 uncompress r = (r', kWaitRecord, [], off) := by
  have hlen := h.length_buffer
  have hpos := h.pos_le
  have hshort : r.buffer.length < r.headerSize := by
    rw [hlen, h.headerSize]
    unfold kHeaderSize at *
    omega
  -- the refill reads what is left of the file, less than a header
  have hblk : ((r.file.drop r.pos).take kBlockSize).length < kHeaderSize := by
    rw [h.file]
    rcases h.block with ⟨hp, -⟩ | hp
    · simp only [List.length_take, List.length_drop, hp]
      unfold kBlockSize kHeaderSize at *
      omega
    · have hend : r.pos = F.length := by
        rw [hp]
        omega
      simp only [hend, List.drop_length, List.take_nil, List.length_nil]
      decide
  have hread : ∃ r2 : Reader, Reader.readBlock uncompress { r with buffer := [] } =
      (r2, .ok ((r.file.drop r.pos).take kBlockSize)) ∧ r2.compressed = false :=
    ⟨_, Reader.readBlock_of_plain uncompress (r := { r with buffer := [] }) h.plain, h.plain⟩
  obtain ⟨r2, hr2, hc2⟩ := hread
  unfold Reader.readPhysicalRecord
  rw [if_pos hshort, hr2]
  exact ⟨_, _, if_pos (by show _ < (if r2.compressed then _ else _); rw [hc2]; exact hblk)⟩

/-- A round of the writer that the file holds only in part: the reader finds
less than a header, in the trailer or the record's own, or a payload cut
short, and waits. -/
theorem round_cut {w w' w'' : Writer} (h : At F w.dest.length r) (hw : w.Plain)
    (hs : Writer.switchBlock compress w = (w', .ok)) {t : RecordType} {fragment : List UInt8}
    (he : Writer.emitPhysicalRecord table0 compress w' t fragment = (w'', .ok))
    (hfit : w'.blockOffset + kHeaderSize + fragment.length ≤ kBlockSize) (hF : F <+: w''.dest)
    (hlt : F.length < w''.dest.length) :
    ∃ r' off, Reader.readPhysicalRecord table0 uncompress r = (r', kWaitRecord, [], off) := by
  have hc' : w'.compressType = .kNoCompress := by
    rw [(Writer.switchBlock_ok compress hs).1]
    exact hw.noCompress
  have hd : w''.dest = w'.dest ++ w'.physicalRecord table0 t fragment := by
    rw [Writer.emitPhysicalRecord_of_noCompress table0 compress hc'] at he
    rw [← (Prod.mk.inj he).1]
  have hR := Writer.length_physicalRecord table0 hc' t fragment
  have hq := h.le_pos.trans h.pos_le
  by_cases hcut : F.length < w'.dest.length
  · -- the cut is in the trailer the switch filled
    have hm := hw.dest_mod
    have hle := hw.blockOffset_le
    have hsw := Writer.switchBlock_of_plain compress hw
    rw [hs] at hsw
    split at hsw
    · rename_i htr
      have hdest : w'.dest.length = w.dest.length + (kBlockSize - w.blockOffset) := by
        rw [(Prod.mk.inj hsw).1, List.length_append, List.length_replicate]
      refine h.readPhysicalRecord_short_end table0 uncompress (by omega) ?_
      unfold kBlockSize kHeaderSize at *
      omega
    · rw [(Prod.mk.inj hsw).1] at hcut
      omega
  · -- the cut is in the physical record: the reader stands at its start
    obtain ⟨r', hat', heq', -, hmod, hroom⟩ := h.afterSwitch table0 compress uncompress hw hs (by omega)
    rw [heq']
    rw [hd] at hF hlt
    simp only [List.length_append] at hlt
    by_cases hh : F.length < w'.dest.length + kHeaderSize
    · refine hat'.readPhysicalRecord_short_end table0 uncompress hh ?_
      unfold kBlockSize kHeaderSize at *
      omega
    · obtain ⟨r1, off, hl, heq⟩ := hat'.readPhysicalRecord_eq table0 uncompress (by rw [hmod]; exact hroom)
        (by omega)
      -- the block holds the rest of the file, a header and part of the payload
      have hpos : r1.pos = F.length := by
        rw [hl.pos_eq, hmod]
        unfold kBlockSize kHeaderSize at *
        omega
      have hb : r1.buffer = (w'.physicalRecord table0 t fragment).take (F.length - w'.dest.length) := by
        have hFeq : F = (w'.dest ++ w'.physicalRecord table0 t fragment).take F.length :=
          List.prefix_iff_eq_take.1 hF
        rw [hl.buffer, hpos]
        nth_rewrite 2 [hFeq]
        rw [List.drop_take, List.drop_left' rfl, List.take_take, Nat.min_self]
      have hp : fragment.length < 2 ^ 16 := by
        unfold kBlockSize kHeaderSize at hfit
        omega
      rw [heq, Reader.parse_cut table0 hl.plain hc' hb (by omega) (by omega) hp]
      exact ⟨_, _, rfl⟩

/-- After the `kEofType` record that ends the file, the reader stands at its
end. -/
theorem round_endLog_end {w : Writer} (h : At F w.dest.length r) (hw : w.Plain)
    (hF : F = (Writer.endLog table0 compress w).1.dest) :
    ∃ r'' off, Reader.readPhysicalRecord table0 uncompress r = (r'', kEof, [], off) ∧ At F F.length r'' := by
  obtain ⟨w', hs⟩ : ∃ w', Writer.switchBlock compress w = (w', .ok) :=
    ⟨_, Writer.switchBlock_of_plain compress hw⟩
  have hc' : w'.compressType = .kNoCompress := by
    rw [(Writer.switchBlock_ok compress hs).1]
    exact hw.noCompress
  have hd : F = w'.dest ++ w'.physicalRecord table0 .kEofType [] := by
    rw [hF]
    unfold Writer.endLog
    rw [hs]
    dsimp only
    rw [Writer.emitPhysicalRecord_of_noCompress table0 compress hc']
  have hR := Writer.length_physicalRecord table0 hc' .kEofType []
  have hlen : F.length = w'.dest.length + kHeaderSize := by
    rw [hd, List.length_append, hR, List.length_nil, Nat.add_zero]
  obtain ⟨r', hat', heq', -, hmod, hroom⟩ := h.afterSwitch table0 compress uncompress hw hs (by omega)
  obtain ⟨r1, off, hl, heq⟩ := hat'.readPhysicalRecord_eq table0 uncompress (by rw [hmod]; exact hroom)
    (by omega)
  have hdrop : F.drop w'.dest.length = w'.physicalRecord table0 .kEofType [] ++ [] := by
    rw [List.append_nil]
    nth_rewrite 1 [hd]
    exact List.drop_left' rfl
  have hb := hl.buffer_eq hdrop (by rw [hR, hmod]; exact hroom)
  have hpos : r1.pos = F.length := by
    rw [hl.pos_eq, hmod]
    unfold kBlockSize kHeaderSize at *
    omega
  refine ⟨{ r1 with buffer := [] }, off, ?_, ?_⟩
  · rw [heq', heq, Reader.parse_eof table0 hl.plain hc' hb]
  · refine ⟨hl.file, hl.plain, hl.initialOffset, hl.resyncing, hl.endOfBufferOffset, ?_, ?_, hl.pos_le, ?_⟩
    · show [] = _
      simp
    · show _ ≤ r1.pos
      omega
    · right
      show r1.pos = _
      rw [hpos]
      unfold kBlockSize
      omega

end At

namespace Reader

variable (table0 : UInt8 → UInt32) (uncompress : CompressType → List UInt8 → Option (List UInt8))

/-- The reader `r` returns the records `recs`, one a call of `ReadRecord`
with `fuel`, and then the status `s`, which leaves the reader `r'`. -/
inductive Reads (fuel : Nat) : Reader → List (List UInt8) → Status → Reader → Prop
  | stop {r r' : Reader} {s : Status} :
    s ≠ .ok → readRecord table0 uncompress fuel r = some (r', s, []) → Reads fuel r [] s r'
  | next {r r' r'' : Reader} {record : List UInt8} {records : List (List UInt8)} {s : Status} :
    readRecord table0 uncompress fuel r = some (r', .ok, record) → Reads fuel r' records s r'' →
      Reads fuel r (record :: records) s r''

end Reader

namespace Writer

variable (table0 : UInt8 → UInt32) (compress : CompressType → List UInt8 → Option (List UInt8))

/-- The records of `records`, written one after the other from `w`, that the
first `n` bytes of the file hold whole. -/
def wholeRecords (n : Nat) : Writer → List (List UInt8) → List (List UInt8)
  | _, [] => []
  | w, record :: records =>
    if (w.addRecord table0 compress record).1.dest.length ≤ n then
      record :: wholeRecords n (w.addRecord table0 compress record).1 records
    else []

end Writer

section Record

variable (table0 : UInt8 → UInt32) (compress : CompressType → List UInt8 → Option (List UInt8))
  (uncompress : CompressType → List UInt8 → Option (List UInt8))

/-- `ReadRecord`'s loop on a file that holds one `AddRecord` only in part:
it follows the rounds held whole and waits at the one cut short. -/
theorem readRecordLoop_addRecordLoop_cut {F : List UInt8} {w : Writer} {rest : List UInt8} {begin : Bool}
    (hw : w.Plain) (hF : F <+: (Writer.addRecordLoop table0 compress w rest begin).1.dest)
    (hlt : F.length < (Writer.addRecordLoop table0 compress w rest begin).1.dest.length)
    {r : Reader} (hr : At F w.dest.length r) {inFragmentedRecord : Bool} {scratch : List UInt8}
    {prospectiveRecordOffset : Nat} (hin : begin = false → inFragmentedRecord = true) {fuel : Nat}
    (hfuel : F.length - w.dest.length < fuel) :
    ∃ r', Reader.readRecordLoop table0 uncompress fuel r inFragmentedRecord scratch prospectiveRecordOffset =
      some (r', .waitRecord, []) := by
  fun_induction Writer.addRecordLoop table0 compress w rest begin
    generalizing r inFragmentedRecord scratch prospectiveRecordOffset fuel with
  | case1 =>
    rename_i w rest begin w' hs avail last type w'' he hlast
    -- the last round is the one cut short
    dsimp only at hF hlt
    obtain ⟨hw', hroom⟩ := Writer.plain_switchBlock compress hw
    rw [hs] at hw' hroom
    obtain ⟨r'', off, hrp⟩ := hr.round_cut table0 compress uncompress hw hs he
      (Writer.fragment_fits hw' hroom rest) hF hlt
    cases fuel with
    | zero => exact absurd hfuel (Nat.not_lt_zero _)
    | succ fuel =>
      exact ⟨_, Reader.readRecordLoop_wait table0 uncompress fuel inFragmentedRecord scratch
        prospectiveRecordOffset hrp⟩
  | case2 =>
    rename_i w rest begin w' hs avail last type w'' he hlast ih
    obtain ⟨hw', hroom⟩ := Writer.plain_switchBlock compress hw
    rw [hs] at hw' hroom
    have hfit := Writer.fragment_fits hw' hroom rest
    have hpre := Writer.dest_prefix_addRecordLoop table0 compress w'' (rest.drop avail) false
    cases fuel with
    | zero => exact absurd hfuel (Nat.not_lt_zero _)
    | succ fuel =>
      by_cases hcut : F.length < w''.dest.length
      · -- this round is cut short
        obtain ⟨r'', off, hrp⟩ := hr.round_cut table0 compress uncompress hw hs he hfit
          (List.prefix_of_prefix_length_le hF hpre (Nat.le_of_lt hcut)) hcut
        exact ⟨_, Reader.readRecordLoop_wait table0 uncompress fuel inFragmentedRecord scratch
          prospectiveRecordOffset hrp⟩
      · -- this round is whole: its fragment is read and the loop goes on
        have htz : type ≠ .kEofType ∧ type ≠ .kZeroType := by
          simp only [type]
          split_ifs <;> decide
        obtain ⟨r'', off, hrp, hat⟩ := hr.round table0 compress uncompress hw hs he hfit
          (List.prefix_of_prefix_length_le hpre hF (by omega)) htz.1 htz.2
        have hw'' : w''.Plain := by
          have := Writer.plain_emitPhysicalRecord table0 compress hw' type hfit
          rwa [he] at this
        have hgrow : w.dest.length + kHeaderSize ≤ w''.dest.length := by
          have h1 := (Writer.dest_prefix_switchBlock compress w).length_le
          rw [hs, Writer.emitPhysicalRecord_of_noCompress table0 compress hw'.noCompress] at *
          rw [← (Prod.mk.inj he).1]
          simp only [List.length_append, Writer.length_physicalRecord table0 hw'.noCompress] at h1 ⊢
          omega
        have hfuel' : F.length - w''.dest.length < fuel := by
          unfold kHeaderSize at hgrow
          omega
        cases begin with
        | true =>
          have htype : type = .kFirstType := by simp [type, hlast]
          rw [htype] at hrp
          rw [Reader.readRecordLoop_first table0 uncompress fuel inFragmentedRecord scratch
            prospectiveRecordOffset hrp hat.resyncing]
          exact ih hw'' hF hlt hat (fun _ => rfl) hfuel'
        | false =>
          have htype : type = .kMiddleType := by simp [type, hlast]
          rw [htype] at hrp
          rw [hin rfl, Reader.readRecordLoop_middle table0 uncompress fuel scratch prospectiveRecordOffset hrp
            hat.resyncing]
          exact ih hw'' hF hlt hat (fun _ => rfl) hfuel'
  | case3 =>
    rename_i w rest begin w' hs avail last type hne
    have hw' := (Writer.plain_switchBlock compress hw).1
    rw [hs] at hw'
    exact absurd (Writer.emitPhysicalRecord_of_noCompress table0 compress hw'.noCompress _ _) (hne _)
  | case4 =>
    rename_i w rest begin hne
    exact absurd (Writer.switchBlock_of_plain compress hw) (hne _)

/-- A record the file holds whole is read back, and the reader stands after
it. -/
theorem readRecord_whole {F : List UInt8} {w : Writer} (hw : w.Plain) {record : List UInt8}
    (hF : (w.addRecord table0 compress record).1.dest <+: F) {r : Reader} (hr : At F w.dest.length r)
    {fuel : Nat} (hfuel : F.length < fuel) :
    ∃ r', Reader.readRecord table0 uncompress fuel r = some (r', .ok, record) ∧
      At F (w.addRecord table0 compress record).1.dest.length r' := by
  have hlen := hF.length_le
  -- a record begins a new `AddRecord`, outside a fragmented one
  obtain ⟨r', hread, hat, -⟩ : ∃ r', Reader.readRecordLoop table0 uncompress fuel r false [] 0 =
        some (r', .ok, (if true then [] else []) ++ record) ∧
      At F (w.addRecord table0 compress record).1.dest.length r' ∧
      r'.lastRecordEndOffset = (w.addRecord table0 compress record).1.dest.length :=
    readRecordLoop_addRecordLoop table0 compress uncompress hw hF hr (fun h => absurd h (by decide))
      (by unfold Writer.addRecord at hlen; omega)
  refine ⟨r', ?_, hat⟩
  rw [readRecord_of_at table0 uncompress hr, hread, if_pos rfl, List.nil_append]

/-- The records written after `w`, all of which the file holds, read one a
call, and then the end that `hend` says the reader finds after the last. -/
theorem reads_whole {F : List UInt8} {fuel : Nat} (hfuel : F.length < fuel) {s : Status} (hs : s ≠ .ok)
    (P : Reader → Prop) :
    ∀ (records : List (List UInt8)) {w : Writer}, w.Plain →
      (records.foldl (fun w record => (w.addRecord table0 compress record).1) w).dest <+: F →
      (∀ r', At F (records.foldl (fun w record => (w.addRecord table0 compress record).1) w).dest.length r' →
        ∃ r'', Reader.readRecord table0 uncompress fuel r' = some (r'', s, []) ∧ P r'') →
      ∀ {r : Reader}, At F w.dest.length r → ∃ r', Reader.Reads table0 uncompress fuel r records s r' ∧ P r'
  | [], _, _, _, hend, r, hr => by
    obtain ⟨r'', hread, hP⟩ := hend r hr
    exact ⟨r'', .stop hs hread, hP⟩
  | record :: records, w, hw, hF, hend, r, hr => by
    have hw1 : (w.addRecord table0 compress record).1.Plain := (Writer.addRecordLoop_plain table0 compress hw record true).1
    have hF1 := (dest_prefix_foldl table0 compress records _).trans hF
    obtain ⟨r1, hread, hat⟩ := readRecord_whole table0 compress uncompress hw hF1 hr hfuel
    obtain ⟨r', hreads, hP⟩ := reads_whole hfuel hs P records hw1 hF hend hat
    exact ⟨r', .next hread hreads, hP⟩

/-- A log cut anywhere reads back the records it holds whole, and then
`WaitRecord`. -/
theorem reads_cut {F : List UInt8} {fuel : Nat} (hfuel : F.length < fuel) :
    ∀ (records : List (List UInt8)) {w : Writer}, w.Plain → w.dest.length ≤ F.length →
      F <+: (records.foldl (fun w record => (w.addRecord table0 compress record).1) w).dest →
      ∀ {r : Reader}, At F w.dest.length r →
        ∃ r', Reader.Reads table0 uncompress fuel r (Writer.wholeRecords table0 compress F.length w records)
          .waitRecord r'
  | [], w, _, hle, hF, r, hr => by
    -- the file is what was written, read to its end
    have hFw : F = w.dest := hF.eq_of_length (Nat.le_antisymm hF.length_le hle)
    have hend : At F F.length r := by
      rw [hFw] at hr ⊢
      exact hr
    obtain ⟨r'', off, hrp⟩ := hend.readPhysicalRecord_end table0 uncompress
    cases fuel with
    | zero => exact absurd hfuel (Nat.not_lt_zero _)
    | succ fuel =>
      exact ⟨_, .stop (by decide) (by
        rw [readRecord_of_at table0 uncompress hr, Reader.readRecordLoop_wait table0 uncompress fuel _ _ _ hrp])⟩
  | record :: records, w, hw, hle, hF, r, hr => by
    have hw1 : (w.addRecord table0 compress record).1.Plain := (Writer.addRecordLoop_plain table0 compress hw record true).1
    have hpre := dest_prefix_foldl table0 compress records (w.addRecord table0 compress record).1
    by_cases hwhole : (w.addRecord table0 compress record).1.dest.length ≤ F.length
    · -- the record is whole: it is read, and the rest after it
      obtain ⟨r1, hread, hat⟩ := readRecord_whole table0 compress uncompress hw
        (List.prefix_of_prefix_length_le hpre hF hwhole) hr hfuel
      obtain ⟨r', hreads⟩ := reads_cut hfuel records hw1 hwhole hF hat
      refine ⟨r', ?_⟩
      rw [Writer.wholeRecords, if_pos hwhole]
      exact .next hread hreads
    · -- the record is cut short: the reader waits
      have hcut : F <+: (w.addRecord table0 compress record).1.dest :=
        List.prefix_of_prefix_length_le hF hpre (by omega)
      obtain ⟨r', hloop⟩ : ∃ r', Reader.readRecordLoop table0 uncompress fuel r false [] 0 =
          some (r', .waitRecord, []) :=
        readRecordLoop_addRecordLoop_cut table0 compress uncompress hw hcut
          (by unfold Writer.addRecord at hwhole; omega) hr (fun h => absurd h (by decide)) (by omega)
      refine ⟨r', ?_⟩
      rw [Writer.wholeRecords, if_neg hwhole]
      exact .stop (by decide) (by rw [readRecord_of_at table0 uncompress hr]; exact hloop)

/-- An ended log reads back its records, then `Eof`, and after it
`WaitRecord`. -/
theorem reads_endLog {F : List UInt8} {fuel : Nat} (hfuel : F.length < fuel) (records : List (List UInt8))
    {w : Writer} (hw : w.Plain)
    (hF : F = (Writer.endLog table0 compress
      (records.foldl (fun w record => (w.addRecord table0 compress record).1) w)).1.dest)
    {r : Reader} (hr : At F w.dest.length r) :
    ∃ r', Reader.Reads table0 uncompress fuel r records .eof r' ∧
      ∃ r'', Reader.readRecord table0 uncompress fuel r' = some (r'', .waitRecord, []) := by
  have hlast := plain_foldl table0 compress records hw
  have hpre : (records.foldl (fun w record => (w.addRecord table0 compress record).1) w).dest <+: F := by
    rw [hF]
    exact Writer.dest_prefix_endLog table0 compress _
  refine reads_whole table0 compress uncompress hfuel (by decide) _ records hw hpre ?_ hr
  -- the `kEofType` record, and then the end of the file
  intro r' hat
  obtain ⟨r'', off, hrp, hend⟩ := hat.round_endLog_end table0 compress uncompress hlast hF
  cases fuel with
  | zero => exact absurd hfuel (Nat.not_lt_zero _)
  | succ fuel =>
    refine ⟨r'', ?_, ?_⟩
    · rw [readRecord_of_at table0 uncompress hat, Reader.readRecordLoop_eof table0 uncompress fuel _ _ _ hrp,
        Reader.with_resyncing_of_false hend.resyncing]
    · obtain ⟨r3, off3, hrp3⟩ := hend.readPhysicalRecord_end table0 uncompress
      exact ⟨_, by rw [readRecord_of_at table0 uncompress hend,
        Reader.readRecordLoop_wait table0 uncompress fuel _ _ _ hrp3]⟩

end Record

end Fedb.Log
