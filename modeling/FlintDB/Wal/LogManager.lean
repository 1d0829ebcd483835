import FlintDB.Lib.TornTail
import FlintDB.Wal.LogRecord

set_option autoImplicit false

namespace FlintDB

open Lib

-- The WAL file as the kernel sees it: its bytes, and how many of them a completed fsync covers.
structure WalFile where
  content : Bytes := []
  synced : Nat := 0
  deriving DecidableEq

namespace WalFile

-- FullWrite without an I/O error; a file cannot grow past the largest offset.
def write (file : WalFile) (buf : Bytes) : Option WalFile :=
  if file.content.length + buf.length ≤ maxFileSize then
    some { file with content := file.content ++ buf }
  else none

def fsync (file : WalFile) : WalFile := { file with synced := file.content.length }

def ftruncate (file : WalFile) (size : Nat) : WalFile :=
  { content := file.content.take size, synced := min file.synced size }

end WalFile

def LogRecord.size (record : LogRecord) : Nat := LogRecord.recordLen record.type

-- Every turn of the loop consumes a record, so the length of the file bounds the turns.
def scanRecords (data : Bytes) : List LogRecord := scan parseRecord LogRecord.size data.length data

-- The offset at which the scan loop stops.
def goodLength (records : List LogRecord) : Nat := (records.map LogRecord.size).sum

-- Lsn is 64 bits wide, whatever is added to it or taken from it.
def wrapLsn (n : Nat) : Nat := n % 2 ^ 64

theorem wrapLsn_of_lt {n : Nat} (small : n < 2 ^ 64) : wrapLsn n = n := Nat.mod_eq_of_lt small

theorem wrapLsn_pred {n : Nat} (positive : 0 < n) (small : n < 2 ^ 64) : wrapLsn (n + (2 ^ 64 - 1)) = n - 1 := by
  rw [wrapLsn]
  omega

structure LogManager where
  file : WalFile
  nextLsn : Nat
  recordsOnOpen : List LogRecord
  durableLsn : Nat := 0
  flushInProgress : Bool := false
  deriving DecidableEq

namespace LogManager

def «open» (data : Bytes) : LogManager :=
  let records := scanRecords data
  let offset := goodLength records
  let file : WalFile := { content := data, synced := 0 }
  { file := if offset < data.length then file.ftruncate offset else file
    nextLsn := match records.getLast? with
      | some last => wrapLsn (last.lsn + 1)
      | none => 1
    recordsOnOpen := records }

def appendRecord (log : LogManager) (type : LogRecordType) (txnId : Nat) (objectId : Nat)
    (pageId : Nat) (payload : Bytes) : Option (LogManager × Nat) :=
  let lsn := log.nextLsn
  match log.file.write (recordBuf lsn type txnId objectId pageId payload) with
  | none => none
  | some file => some ({ log with file := file, nextLsn := wrapLsn (lsn + 1) }, lsn)

def appendBegin (log : LogManager) (txnId : Nat) : Option (LogManager × Nat) :=
  log.appendRecord .kBegin txnId invalidObjectId invalidPageId []

def appendUpdate (log : LogManager) (txnId : Nat) (objectId : Nat) (pageId : Nat)
    (image : PageImage) : Option (LogManager × Nat) :=
  log.appendRecord .kUpdate txnId objectId pageId image.bytes

def appendCommit (log : LogManager) (txnId : Nat) : Option (LogManager × Nat) :=
  log.appendRecord .kCommit txnId invalidObjectId invalidPageId []

def appendAbort (log : LogManager) (txnId : Nat) : Option (LogManager × Nat) :=
  log.appendRecord .kAbort txnId invalidObjectId invalidPageId []

-- NextLsn() - 1.
def lastLsn (log : LogManager) : Nat := wrapLsn (log.nextLsn + (2 ^ 64 - 1))

-- FlushThrough up to the unlock before fsync: this thread becomes the flusher and fixes the LSN its fsync is going to
-- cover.
def flushBegin (log : LogManager) (targetLsn : Nat) : LogManager × Nat :=
  ({ log with flushInProgress := true }, max targetLsn log.lastLsn)

-- FlushThrough after a successful fsync, with flush_mutex_ taken again.
def flushEnd (log : LogManager) (toCover : Nat) : LogManager :=
  { log with flushInProgress := false, durableLsn := max log.durableLsn toCover }

-- FlushThrough called with no other thread inside the LogManager. The flusher publishes at least `targetLsn`, so the
-- loop runs once; waiting for another thread's flush would never end.
def flushThrough (log : LogManager) (targetLsn : Nat) : Option LogManager :=
  if log.durableLsn < targetLsn then
    if log.flushInProgress then none
    else
      let (begun, toCover) := log.flushBegin targetLsn
      some (LogManager.flushEnd { begun with file := begun.file.fsync } toCover)
  else some log

def checkpoint (log : LogManager) : LogManager :=
  { log with file := log.file.ftruncate 0, nextLsn := 1 }

theorem appendRecord_some {log log' : LogManager} {type : LogRecordType} {txnId : Nat}
    {objectId : Nat} {pageId : Nat} {payload : Bytes} {lsn : Nat}
    (appended : log.appendRecord type txnId objectId pageId payload = some (log', lsn)) :
    lsn = log.nextLsn ∧
      log.file.content.length + (recordBuf log.nextLsn type txnId objectId pageId payload).length ≤
        maxFileSize ∧
      log' = { log with
        file := { log.file with
          content := log.file.content ++ recordBuf log.nextLsn type txnId objectId pageId payload }
        nextLsn := wrapLsn (log.nextLsn + 1) } := by
  simp only [appendRecord, WalFile.write] at appended
  split at appended
  · cases appended
  · rename_i file written
    split at written
    · rename_i fits
      cases written
      cases appended
      exact ⟨rfl, fits, rfl⟩
    · cases written

theorem flushThrough_cases {log log' : LogManager} {targetLsn : Nat}
    (flushed : log.flushThrough targetLsn = some log') :
    (targetLsn ≤ log.durableLsn ∧ log' = log) ∨
      (log.durableLsn < targetLsn ∧ log' = { log with
        file := log.file.fsync
        flushInProgress := false
        durableLsn := max log.durableLsn (max targetLsn log.lastLsn) }) := by
  simp only [flushThrough] at flushed
  split at flushed
  · rename_i behind
    split at flushed
    · cases flushed
    · cases flushed
      exact .inr ⟨behind, rfl⟩
  · rename_i covered
    cases flushed
    exact .inl ⟨Nat.le_of_not_lt covered, rfl⟩

end LogManager

end FlintDB
