import Fedb.Codec.Pairs

/-! # The pair encodings read back

`EncodeRows` and the end of `Traverse` write their records back to back
(`encodeRows_eq`, `traversePairs_eq`). Each decoder walks those records one
at a time, and its invariant is that the records still to read stand at its
position.
* `Decode` and `DecodeFull` then lower their count by exactly one record.
* `KvIterator` stands after the header of the record it holds, and runs past
  the end after the last one.

The round trip `pairs_round_trip` needs three conditions.
* The total stays below `2^31`, so that `EncodeRows`' `int32_t` is the size.
* The traverse records stay below `2^32 - 8`, so that no `uint32_t` counter
  wraps.
* `EncodeRows` either has rows or starts from an empty string. Without rows
  it does not touch `pairs`.
-/

namespace Fedb.Codec

open ByteBuffer
open Fedb.Storage (Slice sliceCompare)

/-! ## The records back to back -/

/-- The records `EncodeRows` writes for the rows, one after the other. -/
def pairRecords (rows : List (UInt64 × List UInt8)) : List UInt8 :=
  (rows.map fun r => pairRecord r.1 r.2).flatten

/-- The records `Traverse` writes, one after the other. -/
def fullRecords (records : List (Slice × UInt64 × List UInt8)) : List UInt8 :=
  (records.map fun r => fullRecord r.1 r.2.1 r.2.2).flatten

@[simp] theorem length_pairRecord (time : UInt64) (data : List UInt8) :
    (pairRecord time data).length = 12 + data.length := by
  simp [pairRecord]
  omega

@[simp] theorem length_fullRecord (pk : Slice) (time : UInt64) (data : List UInt8) :
    (fullRecord pk time data).length = 16 + pk.length + data.length := by
  simp [fullRecord]
  omega

theorem pairRecords_cons (time : UInt64) (data : List UInt8) (rows : List (UInt64 × List UInt8)) :
    pairRecords ((time, data) :: rows) = pairRecord time data ++ pairRecords rows := rfl

theorem fullRecords_cons (pk : Slice) (time : UInt64) (data : List UInt8)
    (records : List (Slice × UInt64 × List UInt8)) :
    fullRecords ((pk, time, data) :: records) = fullRecord pk time data ++ fullRecords records := rfl

theorem length_pairRecords (rows : List (UInt64 × List UInt8)) :
    (pairRecords rows).length = 12 * rows.length + (rows.map fun r => r.2.length).sum := by
  induction rows with
  | nil => rfl
  | cons r rows ih =>
    obtain ⟨time, data⟩ := r
    rw [pairRecords_cons, List.length_append, ih, length_pairRecord]
    simp only [List.length_cons, List.map_cons, List.sum_cons]
    omega

theorem length_fullRecords (records : List (Slice × UInt64 × List UInt8)) :
    (fullRecords records).length =
      16 * records.length + (records.map fun r => r.1.length + r.2.2.length).sum := by
  induction records with
  | nil => rfl
  | cons r records ih =>
    obtain ⟨pk, time, data⟩ := r
    rw [fullRecords_cons, List.length_append, ih, length_fullRecord]
    simp only [List.length_cons, List.map_cons, List.sum_cons]
    omega

/-- The loop of `EncodeRows` stores the records from `offset` on, as long as
the offsets do not wrap. -/
theorem encodeRowsLoop_eq : ∀ (rows : List (UInt64 × List UInt8)) (buffer : List UInt8) (offset : Nat),
    offset + (pairRecords rows).length < 2 ^ 32 →
      encodeRowsLoop rows buffer offset = writeBytes buffer offset (pairRecords rows)
  | [], _, _, _ => rfl
  | (time, data) :: rows, buffer, offset, h => by
    rw [pairRecords_cons, List.length_append, length_pairRecord] at h
    have hoff : u32 (offset + (4 + 8 + data.length)) = offset + (pairRecord time data).length := by
      rw [length_pairRecord, u32_of_lt (by omega)]
    rw [encodeRowsLoop, hoff, encodeRowsLoop_eq rows _ _ (by rw [length_pairRecord]; omega), encode,
      writeBytes_append, pairRecords_cons]

theorem traverseEncodeLoop_eq :
    ∀ (records : List (Slice × UInt64 × List UInt8)) (buffer : List UInt8) (offset : Nat),
      offset + (fullRecords records).length < 2 ^ 32 →
        traverseEncodeLoop records buffer offset = writeBytes buffer offset (fullRecords records)
  | [], _, _, _ => rfl
  | (pk, time, data) :: records, buffer, offset, h => by
    rw [fullRecords_cons, List.length_append, length_fullRecord] at h
    have hoff : u32 (offset + (4 + 4 + 8 + pk.length + data.length)) =
        offset + (fullRecord pk time data).length := by
      rw [length_fullRecord, u32_of_lt (by omega)]
    rw [traverseEncodeLoop, hoff, traverseEncodeLoop_eq records _ _ (by rw [length_fullRecord]; omega),
      encodeFull, writeBytes_append, fullRecords_cons]

/-- With rows, `EncodeRows` leaves exactly their records in `pairs`. -/
theorem encodeRows_eq (rows : List (UInt64 × List UInt8)) (pairs : List UInt8) (hne : rows ≠ [])
    (hsize : (pairRecords rows).length < 2 ^ 32) :
    (encodeRows rows (rows.map fun r => r.2.length).sum pairs).2 = pairRecords rows := by
  have hlen := length_pairRecords rows
  have htotal : u32 (rows.length * (8 + 4) + (rows.map fun r => r.2.length).sum) = (pairRecords rows).length := by
    rw [u32_of_lt (by omega)]
    omega
  have hpos : rows.length > 0 := List.length_pos_iff.mpr hne
  simp only [encodeRows, htotal, if_pos hpos]
  rw [encodeRowsLoop_eq rows _ 0 (by omega)]
  exact writeBytes_whole (by rw [length_resize])

/-- Without rows, `EncodeRows` returns `total_block_size` and leaves `pairs`
as it was. -/
theorem encodeRows_nil (totalBlockSize : Nat) (pairs : List UInt8) :
    encodeRows [] totalBlockSize pairs = (Int32.ofNat (u32 totalBlockSize), pairs) := by
  simp [encodeRows, encodeRowsLoop]

/-- The end of `Traverse` leaves exactly the records in `pairs`. -/
theorem traversePairs_eq (records : List (Slice × UInt64 × List UInt8)) (pairs : List UInt8)
    (hsize : (fullRecords records).length < 2 ^ 32) :
    traversePairs records pairs = fullRecords records := by
  have hlen := length_fullRecords records
  have hblock : u32 (records.map fun r => r.1.length + r.2.2.length).sum =
      (records.map fun r => r.1.length + r.2.2.length).sum := u32_of_lt (by omega)
  have htotal : u32 (records.length * (8 + 4 + 4) + (records.map fun r => r.1.length + r.2.2.length).sum) =
      (fullRecords records).length := by
    rw [u32_of_lt (by omega)]
    omega
  cases records with
  | nil => simp [traversePairs, traverseEncodeLoop, fullRecords, resize]
  | cons r records =>
    simp only [traversePairs]
    rw [hblock, htotal, if_neg (by simp), traverseEncodeLoop_eq _ _ 0 (by omega)]
    exact writeBytes_whole (by rw [length_resize])

theorem traverseEncodeLoop_nil_buffer :
    ∀ (records : List (Slice × UInt64 × List UInt8)) (offset : Nat), traverseEncodeLoop records [] offset = []
  | [], _ => rfl
  | (_, _, _) :: records, _ => by
    rw [traverseEncodeLoop, encodeFull, writeBytes_nil, traverseEncodeLoop_nil_buffer records]

/-- Records of `2^32` bytes in all: `Traverse`'s `uint32_t` total is `0`, and
`pairs` is left empty. -/
theorem traversePairs_of_wrap (records : List (Slice × UInt64 × List UInt8)) (pairs : List UInt8)
    (hne : records ≠ [])
    (hwrap : (16 * records.length + (records.map fun r => r.1.length + r.2.2.length).sum) % 2 ^ 32 = 0) :
    traversePairs records pairs = [] := by
  have htotal : u32 (records.length * (8 + 4 + 4) + u32 (records.map fun r => r.1.length + r.2.2.length).sum) = 0 := by
    unfold u32
    rw [Nat.add_mod_mod, Nat.mul_comm]
    exact hwrap
  have hpos : ¬ records.length ≤ 0 := by
    have := List.length_pos_iff.mpr hne
    omega
  simp only [traversePairs]
  rw [htotal, if_neg hpos]
  simp only [resize, List.take_zero, Nat.zero_sub, List.replicate_zero, List.append_nil]
  exact traverseEncodeLoop_nil_buffer records 0

/-- One record whose value has `2^32 - 16` bytes wraps the total to `0`. -/
theorem traversePairs_of_wrap_single (time : UInt64) (data : List UInt8) (pairs : List UInt8)
    (hlen : data.length = 2 ^ 32 - 16) : traversePairs [([], time, data)] pairs = [] :=
  traversePairs_of_wrap _ _ (List.cons_ne_nil _ _) (by simp [hlen])

/-! ## `Decode` and `DecodeFull` -/

/-- The fields of a pair record, read where the record stands. -/
theorem pairRecord_fields {buf rest : List UInt8} {pos : Nat} {time : UInt64} {data : List UInt8}
    (hd : buf.drop pos = pairRecord time data ++ rest) (hsize : 8 + data.length < 2 ^ 32) :
    readLE buf pos 4 = 8 + data.length ∧ UInt64.ofNat (readLE buf (pos + 4) 8) = time ∧
      readBytes buf (pos + 12) data.length = data ∧ buf.drop (pos + 12 + data.length) = rest := by
  rw [pairRecord, List.append_assoc, List.append_assoc] at hd
  have h4 := drop_add_of_drop hd
  have h12 := drop_add_of_drop h4
  have hend := drop_add_of_drop h12
  simp only [length_leBytes, Nat.add_assoc, Nat.reduceAdd] at h4 h12 hend
  refine ⟨?_, ?_, readBytes_of_drop h12, by rw [Nat.add_assoc]; exact hend⟩
  · rw [readLE_of_drop hd, u32_of_lt hsize, Nat.mod_eq_of_lt (by norm_num; omega)]
  · rw [readLE_of_drop h4]
    simp

/-- The fields of a traverse record, read where the record stands. -/
theorem fullRecord_fields {buf rest : List UInt8} {pos : Nat} {pk : Slice} {time : UInt64} {data : List UInt8}
    (hd : buf.drop pos = fullRecord pk time data ++ rest) (hsize : 8 + pk.length + data.length < 2 ^ 32) :
    readLE buf pos 4 = 8 + pk.length + data.length ∧ readLE buf (pos + 4) 4 = pk.length ∧
      UInt64.ofNat (readLE buf (pos + 8) 8) = time ∧ readBytes buf (pos + 16) pk.length = pk ∧
      readBytes buf (pos + 16 + pk.length) data.length = data ∧
      buf.drop (pos + 16 + pk.length + data.length) = rest := by
  rw [fullRecord, List.append_assoc, List.append_assoc, List.append_assoc, List.append_assoc] at hd
  have h4 := drop_add_of_drop hd
  have h8 := drop_add_of_drop h4
  have h16 := drop_add_of_drop h8
  have hpk := drop_add_of_drop h16
  have hend := drop_add_of_drop hpk
  simp only [length_leBytes, Nat.add_assoc, Nat.reduceAdd] at h4 h8 h16 hpk hend
  refine ⟨?_, ?_, ?_, readBytes_of_drop h16, by rw [Nat.add_assoc]; exact readBytes_of_drop hpk,
    by rw [Nat.add_assoc, Nat.add_assoc]; exact hend⟩
  · rw [readLE_of_drop hd, u32_of_lt hsize, Nat.mod_eq_of_lt (by norm_num; omega)]
  · rw [readLE_of_drop h4, u32_of_lt (by omega), Nat.mod_eq_of_lt (by norm_num; omega)]
  · rw [readLE_of_drop h8]
    simp

/-- `Decode` reads the records from `pos` to the end, one pair each; the
induction is on the records, `total_size` falling by one record each round. -/
theorem decodeLoop_pairRecords (buf : List UInt8) :
    ∀ (rows : List (UInt64 × List UInt8)) (pos : Nat),
      buf.drop pos = pairRecords rows → (pairRecords rows).length < 2 ^ 32 →
        decodeLoop buf pos (pairRecords rows).length = some rows
  | [], pos, _, _ => by
    rw [decodeLoop, if_pos (show (pairRecords []).length = 0 from rfl)]
  | (time, data) :: rows, pos, hd, hsize => by
    rw [pairRecords_cons] at hd
    rw [pairRecords_cons, List.length_append, length_pairRecord] at hsize ⊢
    obtain ⟨hsz, htime, hdata, hrest⟩ := pairRecord_fields hd (by omega)
    rw [decodeLoop, if_neg (by omega)]
    simp only [hsz]
    rw [if_neg (by omega), show pos + 4 + (8 + data.length) = pos + 12 + data.length by omega,
      show 12 + data.length + (pairRecords rows).length - (8 + data.length + 4) = (pairRecords rows).length by omega,
      decodeLoop_pairRecords buf rows _ hrest (by omega), Option.map_some, Nat.add_sub_cancel_left, htime, hdata]

/-- `DecodeFull` reads the records from `pos` to the end and pushes each
pair under its key; the values must not be empty for its `assert`. -/
theorem decodeFullLoop_fullRecords (buf : List UInt8) :
    ∀ (records : List (Slice × UInt64 × List UInt8)) (pos : Nat) (valueMap : ValueMap),
      buf.drop pos = fullRecords records → (fullRecords records).length < 2 ^ 32 →
      (∀ r ∈ records, r.2.2 ≠ []) →
        decodeFullLoop buf pos (fullRecords records).length valueMap =
          some (OrderedMap.pushAll sliceCompare valueMap (records.map fun r => (r.1, r.2)))
  | [], pos, valueMap, _, _, _ => by
    rw [decodeFullLoop, if_pos (show (fullRecords []).length = 0 from rfl)]
    rfl
  | (pk, time, data) :: records, pos, valueMap, hd, hsize, hne => by
    rw [fullRecords_cons] at hd
    rw [fullRecords_cons, List.length_append, length_fullRecord] at hsize ⊢
    have hdata : 0 < data.length := List.length_pos_iff.mpr (hne _ List.mem_cons_self)
    obtain ⟨hsz, hpks, htime, hpk, hval, hrest⟩ := fullRecord_fields hd (by omega)
    rw [decodeFullLoop, if_neg (by omega)]
    simp only [hsz, hpks]
    rw [if_neg (by omega), show 8 + pk.length + data.length - 8 - pk.length = data.length by omega,
      show 16 + pk.length + data.length + (fullRecords records).length - (8 + pk.length + data.length + 8) =
        (fullRecords records).length by omega, hpk, hval, htime,
      decodeFullLoop_fullRecords buf records _ _ hrest (by omega) fun r hr => hne r (List.mem_cons_of_mem _ hr)]
    rfl

/-! ## `KvIterator` -/

namespace KvIterator

/-- The iterator over `out` stands at byte `p`, as `buffer_` and as
`offset_`. -/
structure At (out : List UInt8) (hasPk : Bool) (p : Nat) (it : KvIterator) : Prop where
  buf : it.buf = out
  tsize : it.tsize = out.length
  pos : it.pos = p
  offset : it.offset = p
  hasPk : it.hasPk = hasPk

theorem length_of_drop {out front rest : List UInt8} {p : Nat} (hd : out.drop p = front ++ rest)
    (hfront : front ≠ []) : out.length = p + front.length + rest.length := by
  have hlen := congrArg List.length hd
  have hpos : 0 < front.length := List.length_pos_iff.mpr hfront
  rw [List.length_drop, List.length_append] at hlen
  omega

/-- `Next()` at a pair record reads it and stands after it. -/
theorem next_of_pairRecord {out rest : List UInt8} {p : Nat} {time : UInt64} {data : List UInt8}
    {it : KvIterator} (h : At out false p it) (hd : out.drop p = pairRecord time data ++ rest)
    (hsize : out.length + 8 < 2 ^ 32) :
    At out false (p + 12 + data.length) it.next ∧ it.next.valid = true ∧ it.next.getKey = time ∧
      it.next.getValue = data := by
  obtain ⟨hbuf, htsize, hpos, hoff, hpk⟩ := h
  have hlen := length_of_drop hd (List.ne_nil_of_length_pos (by rw [length_pairRecord]; omega))
  rw [length_pairRecord] at hlen
  obtain ⟨hsz, htime, hdata, -⟩ := pairRecord_fields hd (by omega)
  have hroom : ¬ u32 (it.offset + 4) > it.tsize := by
    rw [hoff, htsize, u32_of_lt (by omega)]
    omega
  have hoffset : u32 (p + (4 + (8 + data.length))) = p + 12 + data.length := by
    rw [u32_of_lt (by omega)]
    omega
  have hvalue : u32Sub (8 + data.length) 8 = data.length := by
    rw [u32Sub_of_le (by omega) (by omega), Nat.add_sub_cancel_left]
  have hnext : it.next =
      { it with pos := p + 12 + data.length, offset := p + 12 + data.length, time := time, value := data } := by
    unfold next
    rw [hpk, if_neg Bool.false_ne_true, if_neg hroom]
    simp only [hbuf, hpos, hsz, hoff, hoffset, hvalue, htime, hdata]
  rw [hnext]
  refine ⟨⟨hbuf, htsize, rfl, rfl, hpk⟩, ?_, rfl, rfl⟩
  simp only [valid, htsize, hpk, Bool.false_eq_true, if_false]
  simp only [Bool.and_eq_true, Bool.not_eq_true', decide_eq_false_iff_not, not_lt]
  omega

/-- `Next()` at a traverse record reads it and stands after it. -/
theorem next_of_fullRecord {out rest : List UInt8} {p : Nat} {pk : Slice} {time : UInt64}
    {data : List UInt8} {it : KvIterator} (h : At out true p it)
    (hd : out.drop p = fullRecord pk time data ++ rest) (hsize : out.length + 8 < 2 ^ 32) :
    At out true (p + 16 + pk.length + data.length) it.next ∧ it.next.valid = true ∧
      it.next.getPK = pk ∧ it.next.getKey = time ∧ it.next.getValue = data := by
  obtain ⟨hbuf, htsize, hpos, hoff, hhas⟩ := h
  have hlen := length_of_drop hd (List.ne_nil_of_length_pos (by rw [length_fullRecord]; omega))
  rw [length_fullRecord] at hlen
  obtain ⟨hsz, hpks, htime, hpk, hdata, -⟩ := fullRecord_fields hd (by omega)
  have hroom : ¬ u32 (it.offset + 8) > it.tsize := by
    rw [hoff, htsize, u32_of_lt (by omega)]
    omega
  have hoffset : u32 (p + (8 + (8 + pk.length + data.length))) = p + 16 + pk.length + data.length := by
    rw [u32_of_lt (by omega)]
    omega
  have hinner : u32Sub (8 + pk.length + data.length) pk.length = 8 + data.length := by
    rw [u32Sub_of_le (by omega) (by omega)]
    omega
  have hvalue : u32Sub (u32Sub (8 + pk.length + data.length) pk.length) 8 = data.length := by
    rw [hinner, u32Sub_of_le (by omega) (by omega), Nat.add_sub_cancel_left]
  have hnext : it.next =
      { it with pos := p + 16 + pk.length + data.length, offset := p + 16 + pk.length + data.length,
                time := time, pk := pk, value := data } := by
    unfold next
    rw [hhas, if_pos rfl, if_neg hroom]
    simp only [hbuf, hpos, hsz, hpks, hoff, hoffset, hvalue, htime, hpk, hdata]
  rw [hnext]
  refine ⟨⟨hbuf, htsize, rfl, rfl, hhas⟩, ?_, rfl, rfl, rfl⟩
  simp only [valid, htsize, hhas, if_true]
  simp only [Bool.and_eq_true, Bool.not_eq_true', decide_eq_false_iff_not, not_lt]
  omega

/-- At the end of the buffer `Next()` overshoots it, and the iterator is no
longer valid. -/
theorem next_invalid_of_end {out : List UInt8} {hasPk : Bool} {it : KvIterator} (h : At out hasPk out.length it)
    (hsize : out.length + 8 < 2 ^ 32) : it.next.valid = false := by
  obtain ⟨_, htsize, _, hoff, hhas⟩ := h
  cases hasPk with
  | false =>
    have hover : u32 (it.offset + 4) > it.tsize := by
      rw [hoff, htsize, u32_of_lt (by omega)]
      omega
    have hnext : it.next = { it with offset := u32 (it.offset + 4) } := by
      unfold next
      rw [hhas, if_neg Bool.false_ne_true, if_pos hover]
    rw [hnext, valid]
    simp only [Bool.and_eq_false_iff, Bool.not_eq_false', decide_eq_true_eq]
    exact Or.inl hover
  | true =>
    have hover : u32 (it.offset + 8) > it.tsize := by
      rw [hoff, htsize, u32_of_lt (by omega)]
      omega
    have hnext : it.next = { it with offset := u32 (it.offset + 8) } := by
      unfold next
      rw [hhas, if_pos rfl, if_pos hover]
    rw [hnext, valid]
    simp only [Bool.and_eq_false_iff, Bool.not_eq_false', decide_eq_true_eq]
    exact Or.inl hover

/-- A reader of a `ScanResponse` takes the pairs of the records from `p` to
the end. The induction is on the rows; at each round the iterator stands
after the record it holds. -/
theorem pairs_of_at {out : List UInt8} (hsize : out.length + 8 < 2 ^ 32) :
    ∀ (rows : List (UInt64 × List UInt8)) (p : Nat) (it : KvIterator) (fuel : Nat),
      At out false p it → out.drop p = pairRecords rows → p + (pairRecords rows).length = out.length →
        rows.length < fuel → pairs fuel it.next = rows
  | [], p, it, fuel, h, _, hp, _ => by
    have hend : p = out.length := hp
    rw [hend] at h
    exact Cursor.drain_of_not_valid _ _ _ (next_invalid_of_end h hsize) fuel
  | _ :: _, _, _, 0, _, _, _, hf => absurd hf (Nat.not_lt_zero _)
  | (time, data) :: rows, p, it, fuel + 1, h, hd, hp, hf => by
    rw [pairRecords_cons] at hd hp
    obtain ⟨hat, hvalid, hkey, hval⟩ := next_of_pairRecord h hd hsize
    have hrest : out.drop (p + 12 + data.length) = pairRecords rows := (pairRecord_fields hd (by
      rw [List.length_append, length_pairRecord] at hp
      omega)).2.2.2
    rw [List.length_append, length_pairRecord] at hp
    rw [pairs, Cursor.drain_succ_of_valid _ _ _ hvalid, hkey, hval]
    exact congrArg _ (pairs_of_at hsize rows _ _ fuel hat hrest (by omega) (by simp at hf; omega))

/-- A reader of a `TraverseResponse` takes the triples of the records from
`p` to the end. -/
theorem triples_of_at {out : List UInt8} (hsize : out.length + 8 < 2 ^ 32) :
    ∀ (records : List (Slice × UInt64 × List UInt8)) (p : Nat) (it : KvIterator) (fuel : Nat),
      At out true p it → out.drop p = fullRecords records → p + (fullRecords records).length = out.length →
        records.length < fuel → triples fuel it.next = records
  | [], p, it, fuel, h, _, hp, _ => by
    have hend : p = out.length := hp
    rw [hend] at h
    exact Cursor.drain_of_not_valid _ _ _ (next_invalid_of_end h hsize) fuel
  | _ :: _, _, _, 0, _, _, _, hf => absurd hf (Nat.not_lt_zero _)
  | (pk, time, data) :: records, p, it, fuel + 1, h, hd, hp, hf => by
    rw [fullRecords_cons] at hd hp
    obtain ⟨hat, hvalid, hpk, hkey, hval⟩ := next_of_fullRecord h hd hsize
    have hrest : out.drop (p + 16 + pk.length + data.length) = fullRecords records :=
      (fullRecord_fields hd (by
        rw [List.length_append, length_fullRecord] at hp
        omega)).2.2.2.2.2
    rw [List.length_append, length_fullRecord] at hp
    rw [triples, Cursor.drain_succ_of_valid _ _ _ hvalid, hpk, hkey, hval]
    exact congrArg _ (triples_of_at hsize records _ _ fuel hat hrest (by omega) (by simp at hf; omega))

end KvIterator

/-! ## The order of the keys of `DecodeFull`'s map

`std::map<std::string, ...>` orders its keys as `std::string` compares them,
bytewise as `memcmp` and then the shorter first, which is `sliceCompare`. -/

theorem sliceCompare_cons (x y : UInt8) (xs ys : Slice) :
    sliceCompare (x :: xs) (y :: ys) = if x < y then -1 else if y < x then 1 else sliceCompare xs ys := rfl

theorem eq_of_not_lt_of_not_lt {x y : UInt8} (h1 : ¬ x < y) (h2 : ¬ y < x) : x = y :=
  UInt8.le_antisymm (UInt8.not_lt.mp h2) (UInt8.not_lt.mp h1)

theorem sliceCompare_eq_zero_iff : ∀ a b : Slice, sliceCompare a b = 0 ↔ a = b
  | [], [] => by simp [sliceCompare]
  | [], _ :: _ => by simp [sliceCompare]
  | _ :: _, [] => by simp [sliceCompare]
  | x :: xs, y :: ys => by
    rw [sliceCompare_cons]
    by_cases hxy : x < y
    · have hne : x ≠ y := fun h => UInt8.lt_irrefl y (h ▸ hxy)
      simp [hxy, hne]
    · by_cases hyx : y < x
      · have hne : x ≠ y := fun h => UInt8.lt_irrefl x (h ▸ hyx)
        simp [hxy, hyx, hne]
      · rw [if_neg hxy, if_neg hyx, sliceCompare_eq_zero_iff xs ys, eq_of_not_lt_of_not_lt hxy hyx]
        simp

theorem sliceCompare_swap : ∀ a b : Slice, sliceCompare b a = - sliceCompare a b
  | [], [] => rfl
  | [], _ :: _ => rfl
  | _ :: _, [] => rfl
  | x :: xs, y :: ys => by
    rw [sliceCompare_cons, sliceCompare_cons]
    by_cases hxy : x < y
    · have hyx : ¬ y < x := fun h => UInt8.lt_irrefl x (UInt8.lt_trans hxy h)
      simp [hxy, hyx]
    · by_cases hyx : y < x
      · simp [hxy, hyx]
      · simp [hxy, hyx, sliceCompare_swap xs ys]

theorem sliceCompare_trans : ∀ a b c : Slice, sliceCompare a b < 0 → sliceCompare b c < 0 → sliceCompare a c < 0
  | [], [], _, hab, _ => absurd hab (by decide)
  | _ :: _, [], _, hab, _ => absurd hab (by simp [sliceCompare])
  | _, _ :: _, [], _, hbc => absurd hbc (by simp [sliceCompare])
  | [], _ :: _, _ :: _, _, _ => by simp [sliceCompare]
  | x :: xs, y :: ys, z :: zs, hab, hbc => by
    rw [sliceCompare_cons] at hab hbc ⊢
    by_cases hxy : x < y
    · -- the first bytes already decide: `x < y ≤ z`
      have hxz : x < z := by
        by_cases hyz : y < z
        · exact UInt8.lt_trans hxy hyz
        · by_cases hzy : z < y
          · rw [if_neg hyz, if_pos hzy] at hbc
            exact absurd hbc (by decide)
          · rw [eq_of_not_lt_of_not_lt hyz hzy] at hxy
            exact hxy
      rw [if_pos hxz]
      decide
    · by_cases hyx : y < x
      · rw [if_neg hxy, if_pos hyx] at hab
        exact absurd hab (by decide)
      · -- equal first bytes: the tails decide
        obtain rfl := eq_of_not_lt_of_not_lt hxy hyx
        rw [if_neg hxy, if_neg hyx] at hab
        by_cases hxz : x < z
        · rw [if_pos hxz]
          decide
        · by_cases hzx : z < x
          · rw [if_neg hxz, if_pos hzx] at hbc
            exact absurd hbc (by decide)
          · rw [if_neg hxz, if_neg hzx] at hbc ⊢
            exact sliceCompare_trans xs ys zs hab hbc

theorem sliceCompare_lawful : OrderedMap.Lawful sliceCompare where
  eq_iff := sliceCompare_eq_zero_iff
  trans := sliceCompare_trans
  lt_of_not_lt a b hne hnlt := by
    rw [sliceCompare_swap]
    omega

/-! ## The round trip -/

/-- The pair encodings round trip.
* `EncodeRows` returns the size of its records and writes exactly them.
* `Decode` and a `KvIterator` over a `ScanResponse` read the rows back in
  order; the iterator is then no longer valid, however long a reader goes on.
* A `KvIterator` over the `TraverseResponse` that `Traverse` fills reads the
  triples back in order.
* `DecodeFull` groups the pairs under their keys, in order, when no value is
  empty. -/
theorem pairs_round_trip (rows : List (UInt64 × List UInt8)) (totalBlockSize : Nat) (pairs : List UInt8)
    (htotal : totalBlockSize = (rows.map fun r => r.2.length).sum)
    (hsize : 12 * rows.length + totalBlockSize < 2 ^ 31) (hfresh : rows ≠ [] ∨ pairs = [])
    (records : List (Slice × UInt64 × List UInt8)) (responsePairs : List UInt8)
    (hrecords : 16 * records.length + (records.map fun r => r.1.length + r.2.2.length).sum + 8 < 2 ^ 32) :
    (encodeRows rows totalBlockSize pairs).1.toInt = 12 * rows.length + totalBlockSize ∧
      (encodeRows rows totalBlockSize pairs).2.length = 12 * rows.length + totalBlockSize ∧
      decode (encodeRows rows totalBlockSize pairs).2 = some rows ∧
      (∀ fuel, rows.length < fuel →
        KvIterator.pairs fuel (KvIterator.new (encodeRows rows totalBlockSize pairs).2 false) = rows) ∧
      (∀ fuel, records.length < fuel →
        KvIterator.triples fuel (KvIterator.new (traversePairs records responsePairs) true) = records) ∧
      ((∀ r ∈ records, r.2.2 ≠ []) → ∃ m, decodeFull (traversePairs records responsePairs) [] = some m ∧
        ∀ pk, OrderedMap.values m pk = (records.filter fun r => r.1 = pk).map Prod.snd) := by
  subst htotal
  have hlen := length_pairRecords rows
  have hlen' := length_fullRecords records
  -- without rows, `pairs` started empty and is left so
  have hbuf : (encodeRows rows (rows.map fun r => r.2.length).sum pairs).2 = pairRecords rows := by
    by_cases hne : rows = []
    · have hnil : pairs = [] := hfresh.resolve_left (not_not.mpr hne)
      subst hne hnil
      rw [encodeRows_nil]
      rfl
    · exact encodeRows_eq rows pairs hne (by omega)
  have htrav : traversePairs records responsePairs = fullRecords records := traversePairs_eq _ _ (by omega)
  refine ⟨?_, by rw [hbuf]; omega, ?_, ?_, ?_, ?_⟩
  · show (Int32.ofNat (u32 (rows.length * (8 + 4) + (rows.map fun r => r.2.length).sum))).toInt = _
    rw [u32_of_lt (by omega), Int32.toInt_ofNat_of_lt (by omega)]
    push_cast
    ring
  · rw [hbuf, decode, u32_of_lt (by omega)]
    exact decodeLoop_pairRecords _ rows 0 List.drop_zero (by omega)
  · intro fuel hf
    rw [hbuf, KvIterator.new]
    exact @KvIterator.pairs_of_at (pairRecords rows) (by omega) rows 0 _ fuel
      ⟨rfl, u32_of_lt (by omega), rfl, rfl, rfl⟩ List.drop_zero (by omega) hf
  · intro fuel hf
    rw [htrav, KvIterator.new]
    exact @KvIterator.triples_of_at (fullRecords records) (by omega) records 0 _ fuel
      ⟨rfl, u32_of_lt (by omega), rfl, rfl, rfl⟩ List.drop_zero (by omega) hf
  · intro hne
    refine ⟨OrderedMap.pushAll sliceCompare [] (records.map fun r => (r.1, r.2)), ?_, fun pk => ?_⟩
    · rw [htrav, decodeFull, u32_of_lt (by omega)]
      exact decodeFullLoop_fullRecords _ records 0 [] List.drop_zero (by omega) hne
    · rw [OrderedMap.values_pushAll sliceCompare_lawful _ List.Pairwise.nil pk, OrderedMap.values_nil,
        List.nil_append, List.filter_map, List.map_map]
      rfl

theorem pairs_round_trip_one :
    2 = ([((5 : UInt64), ([1, 2] : List UInt8))].map fun r => r.2.length).sum ∧
      12 * [((5 : UInt64), ([1, 2] : List UInt8))].length + 2 < 2 ^ 31 ∧
      ([((5 : UInt64), ([1, 2] : List UInt8))] ≠ [] ∨ ([] : List UInt8) = []) ∧
      16 * [(([7] : Slice), (9 : UInt64), ([3] : List UInt8))].length +
        ([(([7] : Slice), (9 : UInt64), ([3] : List UInt8))].map fun r => r.1.length + r.2.2.length).sum + 8 <
          2 ^ 32 ∧
      decode (encodeRows [(5, [1, 2])] 2 []).2 = some [(5, [1, 2])] :=
  ⟨rfl, by decide, Or.inl (by simp), by decide,
    (pairs_round_trip [(5, [1, 2])] 2 [] rfl (by decide) (Or.inl (by simp)) [([7], 9, [3])] []
      (by decide)).2.2.1⟩

/-- Two inputs on which a decoded `pairs` buffer does not give back the rows:
* No rows, and a `pairs` that already holds a byte: `EncodeRows` returns `0`
  and leaves the byte in place.
* One traverse record of `2^32` bytes: `Traverse`'s `uint32_t` total wraps
  to `0`, `pairs` is resized to nothing, and a reader takes no record. -/
theorem pairs_stale_or_wrapped :
    (encodeRows [] 0 [1]).1.toInt = 0 ∧ (encodeRows [] 0 [1]).2.length = 1 ∧
      ∀ fuel, KvIterator.triples fuel
        (KvIterator.new (traversePairs [([], 0, List.replicate (2 ^ 32 - 16) 0)] []) true) = [] := by
  refine ⟨by rw [encodeRows_nil]; rfl, by rw [encodeRows_nil]; rfl, fun fuel => ?_⟩
  -- the total `16 + (2^32 - 16)` is `0` as a `uint32_t`
  have hwrap : traversePairs [([], 0, List.replicate (2 ^ 32 - 16) 0)] [] = [] :=
    traversePairs_of_wrap_single 0 _ [] List.length_replicate
  rw [hwrap]
  apply Cursor.drain_of_not_valid
  decide

end Fedb.Codec
