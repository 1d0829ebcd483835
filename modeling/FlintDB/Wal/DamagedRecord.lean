import FlintDB.Lib.Checksum
import FlintDB.Wal.LogHistory

set_option autoImplicit false

-- The checksum covers the header and the payload, and the payload length in the header has to be the one of the type.
-- So a record of which one byte is changed is refused, whichever byte it is.

namespace FlintDB

open Lib

theorem fnv1a32_set_ne {data : Bytes} {i : Nat} {old new : UInt8} (found : data[i]? = some old) (changed : new ≠ old) :
    fnv1a32 (data.set i new) ≠ fnv1a32 data := by
  have cancel : ∀ a b : UInt32, a * 0x01000193 = b * 0x01000193 → a = b := by
    intro a b same
    have inverse : (0x01000193 : UInt32) * 0x359c449b = 1 := by decide
    have undone := congrArg (· * (0x359c449b : UInt32)) same
    simp only [UInt32.mul_assoc, inverse, UInt32.mul_one] at undone
    exact undone
  refine foldl_set_ne (fun byte hash hash' same => ?_) (fun hash byte byte' same => ?_) found changed _
  · have undone := congrArg (· ^^^ byte.toUInt32) (cancel _ _ same)
    simpa [UInt32.xor_assoc] using undone
  · have undone := congrArg (hash ^^^ ·) (cancel _ _ same)
    simp only [← UInt32.xor_assoc, UInt32.xor_self, UInt32.zero_xor] at undone
    have number := congrArg UInt32.toNat undone
    simp only [UInt8.toNat_toUInt32] at number
    exact UInt8.toNat.inj number

section ReadAt

variable {data : Bytes} {i offset width : Nat} {old new : UInt8}

theorem readAt_set_outside (outside : i < offset ∨ offset + width ≤ i) :
    readAt width (data.set i new) offset = readAt width data offset := by
  simp only [readAt, List.drop_set]
  rcases outside with before | behind
  · rw [if_pos before]
  · rw [if_neg (by omega), List.take_set, List.set_eq_of_length_le]
    rw [List.length_take]
    omega

theorem readAt_set_inside (found : data[i]? = some old) (changed : new ≠ old) (from_here : offset ≤ i)
    (to_here : i < offset + width) : readAt width (data.set i new) offset ≠ readAt width data offset := by
  simp only [readAt, List.drop_set, if_neg (Nat.not_lt.mpr from_here), List.take_set]
  intro same
  have bytes := leDecode_injective (by simp) same
  have here : (((data.drop offset).take width).set (i - offset) new)[i - offset]? = some new := by
    rw [List.getElem?_set_self']
    simp [List.getElem?_drop, Nat.add_sub_cancel' from_here, found, show i - offset < width by omega]
  rw [bytes, List.getElem?_take, if_pos (by omega), List.getElem?_drop, Nat.add_sub_cancel' from_here, found] at here
  exact changed (Option.some.inj here).symm

end ReadAt

theorem encode_take_body (record : LogRecord) (rest : Bytes) :
    readAt 4 (record.encode ++ rest) (kHeaderSize + expectedPayloadLen record.type) =
      (fnv1a32 ((record.encode ++ rest).take (kHeaderSize + expectedPayloadLen record.type))).toNat := by
  have bodyLen : (recordHeader record.lsn record.type record.txnId record.objectId record.pageId
      (expectedPayloadLen record.type) ++ record.payload).length = kHeaderSize + expectedPayloadLen record.type := by
    rw [List.length_append, recordHeader_length, record.payload_length]
  rw [LogRecord.encode_eq, ← List.append_assoc, List.append_assoc, ← bodyLen, List.take_left]
  exact readAt_append _ _ _ _ (fnv1a32 _).toNat_lt

theorem parseRecord_damaged (record : LogRecord) (rest : Bytes) {i : Nat} {old new : UInt8}
    (within : i < record.encode.length) (found : (record.encode ++ rest)[i]? = some old) (changed : new ≠ old) :
    parseRecord ((record.encode ++ rest).set i new) = none := by
  rw [LogRecord.encode_length, LogRecord.recordLen] at within
  have typeRead : readAt 1 (record.encode ++ rest) kOffType = record.type.toByte := by
    rw [LogRecord.encode_eq, List.append_assoc]
    exact readAt_type _
  have lenRead : readAt 4 (record.encode ++ rest) kOffPayloadLen = expectedPayloadLen record.type := by
    rw [LogRecord.encode_eq, List.append_assoc]
    exact readAt_payloadLen _ (expectedPayloadLen_lt _)
  unfold parseRecord
  split
  · rfl
  · split
    · rfl
    · rename_i type isType
      simp only
      by_cases inLen : kOffPayloadLen ≤ i ∧ i < kOffPayloadLen + 4
      · -- the type is what it was, the length is not
        rw [readAt_set_outside (.inr (by simp only [kOffType, kOffPayloadLen] at *; omega)), typeRead,
          LogRecordType.ofByte?_toByte] at isType
        cases isType
        have differs := readAt_set_inside found changed inLen.1 inLen.2
        rw [lenRead] at differs
        rw [if_pos differs]
      · have sameLen : readAt 4 ((record.encode ++ rest).set i new) kOffPayloadLen =
            expectedPayloadLen record.type := by
          rw [readAt_set_outside (by omega), lenRead]
        rw [sameLen]
        split
        · rfl
        · split
          · rfl
          · -- the checksum is read where it was written
            refine if_pos ?_
            by_cases inBody : i < kHeaderSize + expectedPayloadLen record.type
            · rw [readAt_set_outside (.inl inBody), encode_take_body, List.take_set]
              intro same
              refine fnv1a32_set_ne ?_ changed (UInt32.toNat.inj same).symm
              rw [List.getElem?_take, if_pos inBody, found]
            · have differs := readAt_set_inside found changed (Nat.le_of_not_lt inBody)
                (show i < kHeaderSize + expectedPayloadLen record.type + 4 from within)
              rwa [encode_take_body, ← List.take_set_of_le (Nat.le_of_not_lt inBody)] at differs

theorem scanRecords_damaged {records : List LogRecord} (canonical : ∀ record ∈ records, record.Canonical) {i : Nat}
    {old new : UInt8} (found : (encodeAll records)[i]? = some old) (changed : new ≠ old) :
    scanRecords ((encodeAll records).set i new) = within LogRecord.size records i := by
  obtain ⟨rest, split⟩ := within_isPrefix LogRecord.size records i
  have fits : goodLength (within LogRecord.size records i) ≤ i := within_size records i
  have inFile : i < (encodeAll records).length := (List.getElem?_eq_some_iff.mp found).1
  have parts : encodeAll records = encodeAll (within LogRecord.size records i) ++ encodeAll rest := by
    rw [← split, encodeAll, List.flatMap_append, split]
    rfl
  have front := encodeAll_length (within LogRecord.size records i)
  cases rest with
  | nil =>
    rw [parts] at inFile
    simp only [encodeAll, List.flatMap_nil, List.append_nil] at inFile front
    omega
  | cons record rest =>
    -- the record that holds the byte is the first that does not end in front of it
    have holds : i - goodLength (within LogRecord.size records i) < record.encode.length := by
      by_contra beyond
      have longer : within LogRecord.size records i ++ [record] <+: within LogRecord.size records i := by
        refine prefix_within ⟨rest, by rw [List.append_assoc]; exact split⟩ ?_
        rw [LogRecord.encode_length] at beyond
        simp only [List.map_append, List.map_cons, List.map_nil, List.sum_append, List.sum_singleton]
        simp only [goodLength, LogRecord.size] at *
        omega
      have length := longer.length_le
      simp at length
    have there : (record.encode ++ encodeAll rest)[i - goodLength (within LogRecord.size records i)]? = some old := by
      rw [parts, List.getElem?_append_right (by omega), front] at found
      simpa [encodeAll] using found
    have stops := parseRecord_damaged record (encodeAll rest) holds there changed
    have kept : ∀ other ∈ within LogRecord.size records i, other.Canonical := fun other member =>
      canonical other (split ▸ List.mem_append_left _ member)
    have damaged : (encodeAll records).set i new = encodeAll (within LogRecord.size records i) ++
        (record.encode ++ encodeAll rest).set (i - goodLength (within LogRecord.size records i)) new := by
      rw [parts, List.set_append_right _ _ (by omega), front]
      rfl
    rw [scanRecords, damaged]
    refine scan_stops (fun record rest canonical => parseRecord_encode record canonical rest) LogRecord.encode_length kept
      stops _ ?_
    have few := length_le_goodLength (within LogRecord.size records i)
    rw [List.length_append, front]
    omega

namespace LogHistory

theorem encodeAll_getElem {records : List LogRecord} {k : Nat} {record : LogRecord} (found : records[k]? = some record)
    {offset : Nat} {old : UInt8} (byte : record.encode[offset]? = some old) :
    (encodeAll records)[(encodeAll (records.take k)).length + offset]? = some old := by
  obtain ⟨inList, rfl⟩ := List.getElem?_eq_some_iff.mp found
  obtain ⟨inRecord, -⟩ := List.getElem?_eq_some_iff.mp byte
  have parts : encodeAll records =
      encodeAll (records.take k) ++ (records[k].encode ++ encodeAll (records.drop (k + 1))) := by
    conv_lhs => rw [← List.take_append_drop k records, List.drop_eq_getElem_cons inList]
    rw [encodeAll_append, ← List.singleton_append, encodeAll_append, encodeAll_singleton]
  rw [parts, List.getElem?_append_right (Nat.le_add_right _ _), Nat.add_sub_cancel_left,
    List.getElem?_append_left inRecord, byte]

theorem within_record {records : List LogRecord} {k : Nat} {record : LogRecord} (found : records[k]? = some record)
    {offset : Nat} (inside : offset < record.encode.length) :
    within LogRecord.size records ((encodeAll (records.take k)).length + offset) = records.take k := by
  obtain ⟨inList, rfl⟩ := List.getElem?_eq_some_iff.mp found
  rw [LogRecord.encode_length] at inside
  have outside : ¬ records[k].size ≤ offset := Nat.not_le.mpr inside
  have split : records = records.take k ++ records[k] :: records.drop (k + 1) := by
    rw [List.cons_getElem_drop_succ, List.take_append_drop]
  have front : (encodeAll (records.take k)).length = ((records.take k).map LogRecord.size).sum := encodeAll_length _
  have appended := @within_append _ LogRecord.size (records.take k) (records[k] :: records.drop (k + 1)) _
    (Nat.le_add_right ((records.take k).map LogRecord.size).sum offset)
  rw [← split, Nat.add_sub_cancel_left, within, if_neg outside, List.append_nil] at appended
  rw [front]
  exact appended

/-- Whichever byte of record `k` is changed, the next open finds the records in front of it and cuts the file behind
them. -/
theorem changed_byte_ends_log (events : List Event) (s : State) (reached : run step {} events = some s)
    (running : s.running = true) (k : Nat) (record : LogRecord) (isRecord : s.records[k]? = some record)
    (offset : Nat) (old new : UInt8) (byte : record.encode[offset]? = some old) (changed : new ≠ old) :
    s.log.file.content[(encodeAll (s.records.take k)).length + offset]? = some old ∧
      (LogManager.open (s.log.file.content.set ((encodeAll (s.records.take k)).length + offset) new)).recordsOnOpen =
        s.records.take k ∧
      (LogManager.open
          (s.log.file.content.set ((encodeAll (s.records.take k)).length + offset) new)).file.content =
        s.log.file.content.take (encodeAll (s.records.take k)).length ∧
      (LogManager.open (s.log.file.content.set ((encodeAll (s.records.take k)).length + offset) new)).nextLsn =
        k + 1 := by
  have inv := inv_run reached
  obtain ⟨whole, -⟩ := inv.whole running
  obtain ⟨inList, -⟩ := List.getElem?_eq_some_iff.mp isRecord
  obtain ⟨inRecord, -⟩ := List.getElem?_eq_some_iff.mp byte
  have found := encodeAll_getElem isRecord byte
  have finds : scanRecords ((encodeAll s.records).set ((encodeAll (s.records.take k)).length + offset) new) =
      s.records.take k := by
    rw [scanRecords_damaged inv.canonical found changed, within_record isRecord inRecord]
  rw [whole]
  refine ⟨found, finds, ?_, ?_⟩
  · -- something is left behind the good records, so the open truncates
    have shorter : goodLength (s.records.take k) < (encodeAll s.records).length := by
      have inFile := (List.getElem?_eq_some_iff.mp found).1
      rw [encodeAll_length (s.records.take k)] at inFile
      omega
    simp only [LogManager.open, finds, List.length_set, if_pos shorter, WalFile.ftruncate]
    rw [encodeAll_length, List.take_set_of_le (Nat.le_add_right _ _)]
  · have numbered := lsns_of_prefix inv.lsns (List.take_prefix k s.records)
    have size : (encodeAll (s.records.take k)).length ≤ maxFileSize := by
      have inFile := (List.getElem?_eq_some_iff.mp found).1
      have size := inv.size
      omega
    rw [nextLsn_open, LogManager.open, finds, List.length_take, Nat.min_eq_left (Nat.le_of_lt inList)]
    · simp only [LogManager.open, finds]
      exact numbered
    · simp only [LogManager.open, finds]
      exact size

theorem changed_byte_ends_log_commit_to_abort :
    ∃ s, run step {} [.append (.begin 1), .append (.commit 1)] = some s ∧
      (LogManager.open (s.log.file.content.set 41 4)).recordsOnOpen.map LogRecord.type = [.kBegin] := by
  obtain ⟨s, reached⟩ : ∃ s, run step {} [.append (.begin 1), .append (.commit 1)] = some s := ⟨_, rfl⟩
  have ended : s.running = true ∧ s.records =
      [{ lsn := 1, type := .kBegin, txnId := 1 }, { lsn := 2, type := .kCommit, txnId := 1 }] := by
    cases reached
    exact ⟨rfl, rfl⟩
  have damaged := changed_byte_ends_log _ s reached ended.1 1 { lsn := 2, type := .kCommit, txnId := 1 }
    (by rw [ended.2]; rfl) 8 3 4 (by decide) (by decide)
  refine ⟨s, reached, ?_⟩
  have position : (encodeAll (s.records.take 1)).length + 8 = 41 := by
    rw [ended.2]
    decide
  rw [position] at damaged
  rw [damaged.2.1, ended.2]
  rfl

end LogHistory

end FlintDB
