import FlintDB.Common.Config

set_option autoImplicit false

namespace FlintDB

open Lib

inductive LogRecordType
  | kBegin
  | kUpdate
  | kCommit
  | kAbort
  deriving DecidableEq, Repr

namespace LogRecordType

def toByte : LogRecordType → Nat
  | kBegin => 1
  | kUpdate => 2
  | kCommit => 3
  | kAbort => 4

-- IsValidType, with the static_cast that follows it.
def ofByte? (rawType : Nat) : Option LogRecordType :=
  if rawType = kBegin.toByte then some kBegin
  else if rawType = kUpdate.toByte then some kUpdate
  else if rawType = kCommit.toByte then some kCommit
  else if rawType = kAbort.toByte then some kAbort
  else none

@[simp] theorem ofByte?_toByte (type : LogRecordType) : ofByte? type.toByte = some type := by
  cases type <;> rfl

theorem toByte_lt (type : LogRecordType) : type.toByte < 256 := by
  cases type <;> decide

end LogRecordType

structure LogRecord where
  lsn : Nat := 0
  type : LogRecordType := .kBegin
  txnId : Nat := 0
  objectId : Nat := invalidObjectId
  pageId : Nat := invalidPageId
  pageImage : PageImage := .zero
  deriving DecidableEq

def kOffLsn : Nat := 0
def kOffType : Nat := 8
def kOffTxnId : Nat := 9
def kOffObjectId : Nat := 17
def kOffPageId : Nat := 21
def kOffPayloadLen : Nat := 25
def kHeaderSize : Nat := 29
def kChecksumSize : Nat := 4

def readAt (width : Nat) (buf : Bytes) (offset : Nat) : Nat :=
  leDecode ((buf.drop offset).take width)

def fnv1a32 (data : Bytes) : UInt32 :=
  data.foldl (fun hash byte => (hash ^^^ byte.toUInt32) * 0x01000193) 0x811c9dc5

def expectedPayloadLen (type : LogRecordType) : Nat :=
  if type = .kUpdate then pageSize else 0

def recordHeader (lsn : Nat) (type : LogRecordType) (txnId : Nat) (objectId : Nat)
    (pageId : Nat) (payloadLen : Nat) : Bytes :=
  leEncode 8 lsn ++ (leEncode 1 type.toByte ++ (leEncode 8 txnId ++ (leEncode 4 objectId ++
    (leEncode 4 pageId ++ leEncode 4 payloadLen))))

-- The buffer AppendRecord hands to FullWrite.
def recordBuf (lsn : Nat) (type : LogRecordType) (txnId : Nat) (objectId : Nat)
    (pageId : Nat) (payload : Bytes) : Bytes :=
  let body := recordHeader lsn type txnId objectId pageId payload.length ++ payload
  body ++ leEncode 4 (fnv1a32 body).toNat

-- One turn of the constructor's scan loop, on the bytes from the current offset on.
def parseRecord (data : Bytes) : Option LogRecord :=
  if data.length < kHeaderSize then none
  else
    match LogRecordType.ofByte? (readAt 1 data kOffType) with
    | none => none
    | some type =>
      let payloadLen := readAt 4 data kOffPayloadLen
      if payloadLen ≠ expectedPayloadLen type then none
      else if data.length < kHeaderSize + payloadLen + kChecksumSize then none
      else if readAt 4 data (kHeaderSize + payloadLen) ≠
          (fnv1a32 (data.take (kHeaderSize + payloadLen))).toNat then none
      else some {
        lsn := readAt 8 data kOffLsn
        type := type
        txnId := readAt 8 data kOffTxnId
        objectId := readAt 4 data kOffObjectId
        pageId := readAt 4 data kOffPageId
        pageImage := .ofBytes ((data.drop kHeaderSize).take payloadLen) }

namespace LogRecord

def payload (record : LogRecord) : Bytes :=
  if record.type = .kUpdate then record.pageImage.bytes else []

def encode (record : LogRecord) : Bytes :=
  recordBuf record.lsn record.type record.txnId record.objectId record.pageId record.payload

def recordLen (type : LogRecordType) : Nat := kHeaderSize + expectedPayloadLen type + kChecksumSize

/-- The fields fit their columns, and only an Update carries an image. -/
structure Canonical (record : LogRecord) : Prop where
  lsn_lt : record.lsn < 2 ^ 64
  txnId_lt : record.txnId < 2 ^ 64
  objectId_lt : record.objectId < 2 ^ 32
  pageId_lt : record.pageId < 2 ^ 32
  image_zero : record.type ≠ .kUpdate → record.pageImage = .zero

theorem payload_length (record : LogRecord) :
    record.payload.length = expectedPayloadLen record.type := by
  by_cases update : record.type = .kUpdate
  · simp [payload, expectedPayloadLen, update, record.pageImage.size_eq]
  · simp [payload, expectedPayloadLen, update]

end LogRecord

theorem recordHeader_length (lsn : Nat) (type : LogRecordType) (txnId : Nat)
    (objectId : Nat) (pageId : Nat) (payloadLen : Nat) :
    (recordHeader lsn type txnId objectId pageId payloadLen).length = kHeaderSize := by
  simp [recordHeader, kHeaderSize]

theorem recordBuf_length (lsn : Nat) (type : LogRecordType) (txnId objectId pageId : Nat) (payload : Bytes) :
    (recordBuf lsn type txnId objectId pageId payload).length = kHeaderSize + payload.length + kChecksumSize := by
  simp only [recordBuf, List.length_append, recordHeader_length, leEncode_length, kChecksumSize]

theorem LogRecord.encode_length (record : LogRecord) :
    record.encode.length = recordLen record.type := by
  rw [encode, recordBuf_length, payload_length, recordLen]

theorem LogRecord.recordLen_pos (type : LogRecordType) : 33 ≤ recordLen type := by
  simp only [recordLen, kHeaderSize, kChecksumSize]
  omega

theorem recordBuf_lsn_mod (lsn : Nat) (type : LogRecordType) (txnId objectId pageId : Nat) (payload : Bytes) :
    recordBuf (lsn % 2 ^ 64) type txnId objectId pageId payload =
      recordBuf lsn type txnId objectId pageId payload := by
  have low : leEncode 8 (lsn % 2 ^ 64) = leEncode 8 lsn := leEncode_mod 8 lsn
  simp only [recordBuf, recordHeader, low]

theorem readAt_append (width : Nat) (before : Bytes) (n : Nat) (after : Bytes)
    (bound : n < 256 ^ width) :
    readAt width (before ++ (leEncode width n ++ after)) before.length = n := by
  have field : ((before ++ (leEncode width n ++ after)).drop before.length).take width =
      leEncode width n := by
    rw [List.drop_left, List.take_append_of_le_length (by simp)]
    simp [List.take_of_length_le]
  rw [readAt, field, leDecode_leEncode_of_lt bound]

theorem readAt_take {width : Nat} (buf : Bytes) {offset n : Nat} (within : offset + width ≤ n) :
    readAt width (buf.take n) offset = readAt width buf offset := by
  simp only [readAt, List.drop_take, List.take_take]
  rw [Nat.min_eq_left (by omega)]

section Fields

variable {lsn : Nat} {type : LogRecordType} {txnId : Nat} {objectId : Nat}
  {pageId : Nat} {payloadLen : Nat} (rest : Bytes)

-- Each field is read back where its neighbours end; the field itself is the middle part.
theorem readAt_lsn (bound : lsn < 2 ^ 64) :
    readAt 8 (recordHeader lsn type txnId objectId pageId payloadLen ++ rest) kOffLsn = lsn := by
  have h := readAt_append 8 [] lsn (leEncode 1 type.toByte ++ (leEncode 8 txnId ++
    (leEncode 4 objectId ++ (leEncode 4 pageId ++ leEncode 4 payloadLen))) ++ rest) (by omega)
  simpa [recordHeader, kOffLsn] using h

theorem readAt_type :
    readAt 1 (recordHeader lsn type txnId objectId pageId payloadLen ++ rest) kOffType =
      type.toByte := by
  have h := readAt_append 1 (leEncode 8 lsn) type.toByte ((leEncode 8 txnId ++
    (leEncode 4 objectId ++ (leEncode 4 pageId ++ leEncode 4 payloadLen))) ++ rest)
    type.toByte_lt
  simpa [recordHeader, kOffType] using h

theorem readAt_txnId (bound : txnId < 2 ^ 64) :
    readAt 8 (recordHeader lsn type txnId objectId pageId payloadLen ++ rest) kOffTxnId =
      txnId := by
  have h := readAt_append 8 (leEncode 8 lsn ++ leEncode 1 type.toByte) txnId
    ((leEncode 4 objectId ++ (leEncode 4 pageId ++ leEncode 4 payloadLen)) ++ rest) (by omega)
  simpa [recordHeader, kOffTxnId] using h

theorem readAt_objectId (bound : objectId < 2 ^ 32) :
    readAt 4 (recordHeader lsn type txnId objectId pageId payloadLen ++ rest) kOffObjectId =
      objectId := by
  have h := readAt_append 4
    (leEncode 8 lsn ++ (leEncode 1 type.toByte ++ leEncode 8 txnId)) objectId
    ((leEncode 4 pageId ++ leEncode 4 payloadLen) ++ rest) (by omega)
  simpa [recordHeader, kOffObjectId] using h

theorem readAt_pageId (bound : pageId < 2 ^ 32) :
    readAt 4 (recordHeader lsn type txnId objectId pageId payloadLen ++ rest) kOffPageId =
      pageId := by
  have h := readAt_append 4
    (leEncode 8 lsn ++ (leEncode 1 type.toByte ++ (leEncode 8 txnId ++ leEncode 4 objectId)))
    pageId (leEncode 4 payloadLen ++ rest) (by omega)
  simpa [recordHeader, kOffPageId] using h

theorem readAt_payloadLen (bound : payloadLen < 2 ^ 32) :
    readAt 4 (recordHeader lsn type txnId objectId pageId payloadLen ++ rest) kOffPayloadLen =
      payloadLen := by
  have h := readAt_append 4 (leEncode 8 lsn ++ (leEncode 1 type.toByte ++
    (leEncode 8 txnId ++ (leEncode 4 objectId ++ leEncode 4 pageId)))) payloadLen rest (by omega)
  simpa [recordHeader, kOffPayloadLen] using h

end Fields

theorem expectedPayloadLen_lt (type : LogRecordType) : expectedPayloadLen type < 2 ^ 32 := by
  unfold expectedPayloadLen pageSize
  split <;> decide

theorem LogRecord.encode_eq (record : LogRecord) : record.encode =
    recordHeader record.lsn record.type record.txnId record.objectId record.pageId
      (expectedPayloadLen record.type) ++ (record.payload ++ leEncode 4 (fnv1a32
        (recordHeader record.lsn record.type record.txnId record.objectId record.pageId
          (expectedPayloadLen record.type) ++ record.payload)).toNat) := by
  simp only [encode, recordBuf, payload_length, List.append_assoc]

theorem parseRecord_encode (record : LogRecord) (canonical : record.Canonical) (rest : Bytes) :
    parseRecord (record.encode ++ rest) = some record := by
  rw [LogRecord.encode_eq, List.append_assoc]
  generalize headerEq : recordHeader record.lsn record.type record.txnId record.objectId
    record.pageId (expectedPayloadLen record.type) = header
  have headerLen : header.length = kHeaderSize := by rw [← headerEq, recordHeader_length]
  generalize tailEq : record.payload ++ leEncode 4 (fnv1a32 (header ++ record.payload)).toNat ++
    rest = tail
  have len := record.payload_length
  have bodyLen : (header ++ record.payload).length =
      kHeaderSize + expectedPayloadLen record.type := by
    rw [List.length_append, headerLen, len]
  have whole : header ++ tail = (header ++ record.payload) ++
      (leEncode 4 (fnv1a32 (header ++ record.payload)).toNat ++ rest) := by
    rw [← tailEq]
    simp only [List.append_assoc]
  have typeRead : readAt 1 (header ++ tail) kOffType = record.type.toByte := by
    rw [← headerEq]; exact readAt_type tail
  have lenRead : readAt 4 (header ++ tail) kOffPayloadLen = expectedPayloadLen record.type := by
    rw [← headerEq]; exact readAt_payloadLen tail (expectedPayloadLen_lt _)
  have bodyTake : (header ++ tail).take (kHeaderSize + expectedPayloadLen record.type) =
      header ++ record.payload := by
    rw [whole, ← bodyLen, List.take_left]
  have checksum : readAt 4 (header ++ tail) (kHeaderSize + expectedPayloadLen record.type) =
      (fnv1a32 (header ++ record.payload)).toNat := by
    rw [whole, ← bodyLen]
    exact readAt_append _ _ _ _ (fnv1a32 (header ++ record.payload)).toNat_lt
  have image : PageImage.ofBytes (((header ++ tail).drop kHeaderSize).take
      (expectedPayloadLen record.type)) = record.pageImage := by
    rw [← headerLen, List.drop_left, ← tailEq, List.append_assoc, ← len, List.take_left]
    by_cases update : record.type = .kUpdate
    · simp [LogRecord.payload, update, PageImage.ofBytes_bytes]
    · simp [LogRecord.payload, update, canonical.image_zero update, PageImage.zero]
  have long : kHeaderSize + expectedPayloadLen record.type + kChecksumSize ≤
      (header ++ tail).length := by
    rw [whole, List.length_append, bodyLen]
    simp only [List.length_append, leEncode_length, kChecksumSize]
    omega
  have longHeader : ¬ (header ++ tail).length < kHeaderSize := by omega
  have longRecord : ¬ (header ++ tail).length <
      kHeaderSize + expectedPayloadLen record.type + kChecksumSize := by omega
  simp only [parseRecord, longHeader, typeRead, LogRecordType.ofByte?_toByte, lenRead, longRecord,
    checksum, bodyTake, image, ne_eq, not_true_eq_false, if_false, Option.some.injEq]
  rw [← headerEq, readAt_lsn tail canonical.lsn_lt, readAt_txnId tail canonical.txnId_lt,
    readAt_objectId tail canonical.objectId_lt, readAt_pageId tail canonical.pageId_lt]

theorem parseRecord_torn (record : LogRecord) {n : Nat} (cut : n < record.encode.length) :
    parseRecord (record.encode.take n) = none := by
  have length : (record.encode.take n).length = n := by
    rw [List.length_take, Nat.min_eq_left (Nat.le_of_lt cut)]
  by_cases short : n < kHeaderSize
  · simp [parseRecord, length, short]
  · have typeRead : readAt 1 (record.encode.take n) kOffType = record.type.toByte := by
      rw [readAt_take _ (by simp only [kOffType, kHeaderSize] at *; omega), LogRecord.encode_eq]
      exact readAt_type _
    have lenRead : readAt 4 (record.encode.take n) kOffPayloadLen =
        expectedPayloadLen record.type := by
      rw [readAt_take _ (by simp only [kOffPayloadLen, kHeaderSize] at *; omega),
        LogRecord.encode_eq]
      exact readAt_payloadLen _ (expectedPayloadLen_lt _)
    have missing : n < kHeaderSize + expectedPayloadLen record.type + kChecksumSize := by
      rw [LogRecord.encode_length, LogRecord.recordLen] at cut
      exact cut
    simp [parseRecord, length, short, typeRead, lenRead, missing]

end FlintDB
