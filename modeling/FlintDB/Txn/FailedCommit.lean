import FlintDB.Txn.Rollback

set_option autoImplicit false

-- An I/O error leaves Commit by an exception, and the session answers it with Abort. Nothing takes back what Commit
-- has already put into the log file and the data files.

namespace FlintDB

open Lib

-- AppendRecord with a write() that fails when `written` bytes of the record are in the file. The LSN is used up.
def LogManager.appendFails (log : LogManager) (type : LogRecordType) (txnId objectId pageId : Nat) (payload : Bytes)
    (written : Nat) : Option LogManager :=
  let buf := recordBuf log.nextLsn type txnId objectId pageId payload
  if written < buf.length then
    (log.file.write (buf.take written)).map fun file => { log with file := file, nextLsn := wrapLsn (log.nextLsn + 1) }
  else none

-- Where in Commit the I/O error comes up.
inductive IoFailure
  | appendUpdate (key : PageKey) (written : Nat)
  | appendCommit (written : Nat)
  | fsync
  | flushPage (key : PageKey) (written : Nat)
  deriving DecidableEq

namespace IoFailure

-- The error comes before the Commit record is complete.
def beforeCommitRecord : IoFailure → Bool
  | appendUpdate .. | appendCommit _ => true
  | fsync | flushPage .. => false

def tears : IoFailure → Bool
  | appendUpdate _ written | appendCommit written => 0 < written
  | fsync | flushPage .. => false

end IoFailure

inductive FaultyEvent
  | ok (event : Event)
  | commitFails (txnId : Nat) (failure : IoFailure)
  deriving DecidableEq

/-- For the accesses and the commits it is as if Abort had been called at once. -/
def history (events : List FaultyEvent) : List Event :=
  events.map fun event =>
    match event with
    | .ok event => event
    | .commitFails txnId _ => .abort txnId

/-- The transactions whose Commit failed. -/
def failed (events : List FaultyEvent) : List Nat :=
  events.filterMap fun event =>
    match event with
    | .ok _ => none
    | .commitFails txnId _ => some txnId

namespace Engine

def unwind (s : Engine) (txnId : Nat) (txn : Transaction) : Engine :=
  s.setTxn txnId { txn with phase := .discarding txn.dirtiedPages }

def failCommit (s : Engine) (txnId : Nat) : IoFailure → Option Engine
  | .appendUpdate key written => do
    let txn ← s.activeTxns txnId
    let pool ← s.pools key.objectId
    let (image, pool) ← pool.fetchPage key.pageId
    let log ← s.log.appendFails .kUpdate txnId key.objectId key.pageId image.bytes written
    match txn.phase with
    | .logging pending =>
      if key ∈ pending then some { (s.setPool key.objectId pool).unwind txnId txn with log := log } else none
    | _ => none
  | .appendCommit written => do
    let txn ← s.activeTxns txnId
    let log ← s.log.appendFails .kCommit txnId invalidObjectId invalidPageId [] written
    if txn.phase = .logging ∅ then some { s.unwind txnId txn with log := log } else none
  -- durable_lsn_ stays, flush_in_progress_ is cleared, and the flusher rethrows
  | .fsync => do
    let txn ← s.activeTxns txnId
    let flusher ← s.flusher
    match txn.phase with
    | .forcing _ =>
      if flusher.txnId = txnId ∧ flusher.fsynced = false then
        some { s.unwind txnId txn with log := { s.log with flushInProgress := false }, flusher := none }
      else none
    | _ => none
  | .flushPage key written => do
    let txn ← s.activeTxns txnId
    let pool ← s.pools key.objectId
    let pool ← pool.flushPageTorn key.pageId written
    match txn.phase with
    | .flushing pending =>
      if key ∈ pending ∧ written < pageSize then some ((s.setPool key.objectId pool).unwind txnId txn) else none
    | _ => none

end Engine

structure FaultyEngine where
  engine : Engine
  -- where the first incomplete record of the log file begins
  tear : Option Nat := none

namespace FaultyEngine

def start (log : LogManager) (files : Nat → Option DiskManager) : FaultyEngine := { engine := Engine.start log files }

def tearAfter (s : FaultyEngine) (failure : IoFailure) : Option Nat :=
  match s.tear with
  | some offset => some offset
  | none => if failure.tears then some s.engine.log.file.content.length else none

def step (s : FaultyEngine) : FaultyEvent → Option FaultyEngine
  | .ok event => (s.engine.step event).map fun next => { s with engine := next }
  | .commitFails txnId failure =>
    (s.engine.failCommit txnId failure).map fun next => { engine := next, tear := s.tearAfter failure }

end FaultyEngine

section History

variable {events : List FaultyEvent} {event : Event} {txnId : Nat} {failure : IoFailure}

@[simp] theorem history_ok : history (events ++ [.ok event]) = history events ++ [event] := by simp [history]

@[simp] theorem history_commitFails :
    history (events ++ [.commitFails txnId failure]) = history events ++ [.abort txnId] := by simp [history]

@[simp] theorem failed_ok : failed (events ++ [.ok event]) = failed events := by simp [failed]

@[simp] theorem failed_commitFails :
    failed (events ++ [.commitFails txnId failure]) = failed events ++ [txnId] := by simp [failed]

end History

namespace Engine

variable {s s' : Engine} {txnId : Nat}

theorem failCommit_append {failure : IoFailure} (early : failure.beforeCommitRecord = true)
    (failed : s.failCommit txnId failure = some s') :
    ∃ txn pending bytes, s.activeTxns txnId = some txn ∧ txn.phase = .logging pending ∧
      s'.activeTxns = Function.update s.activeTxns txnId (some { txn with phase := .discarding txn.dirtiedPages }) ∧
      s'.nextTxnId = s.nextTxnId ∧ s'.locks = s.locks ∧ s'.flusher = s.flusher ∧ Loads s s' ∧
      s.log.file.content.length + bytes.length ≤ maxFileSize ∧
      s'.log = { s.log with
        file := { s.log.file with content := s.log.file.content ++ bytes }
        nextLsn := wrapLsn (s.log.nextLsn + 1) } ∧
      (failure.tears = false → bytes = []) := by
  have part : ∀ {type objectId pageId payload written log},
      s.log.appendFails type txnId objectId pageId payload written = some log →
      ∃ bytes, s.log.file.content.length + bytes.length ≤ maxFileSize ∧
        log = { s.log with
          file := { s.log.file with content := s.log.file.content ++ bytes }
          nextLsn := wrapLsn (s.log.nextLsn + 1) } ∧ (written = 0 → bytes = []) := by
    intro type objectId pageId payload written log appended
    simp only [LogManager.appendFails, WalFile.write, Option.ite_none_right_eq_some, Option.map_eq_some_iff,
      Option.some.injEq] at appended
    obtain ⟨-, file, ⟨room, rfl⟩, rfl⟩ := appended
    exact ⟨_, room, rfl, by rintro rfl; rfl⟩
  cases failure with
  | appendUpdate key written =>
    simp only [failCommit, Option.bind_eq_bind, Option.bind_eq_some_iff] at failed
    obtain ⟨txn, active, pool, found, ⟨image, next⟩, fetched, log, appended, moved⟩ := failed
    split at moved
    · rename_i pending phase
      simp only [Option.ite_none_right_eq_some, Option.some.injEq] at moved
      obtain ⟨-, rfl⟩ := moved
      obtain ⟨bytes, room, log_eq, none⟩ := part appended
      exact ⟨txn, pending, bytes, active, phase, rfl, rfl, rfl, rfl, (loads_fetchPage found fetched).2.of_pools rfl,
        room, log_eq, fun whole => none (by simpa [IoFailure.tears] using whole)⟩
    · cases moved
  | appendCommit written =>
    simp only [failCommit, Option.bind_eq_bind, Option.bind_eq_some_iff, Option.ite_none_right_eq_some,
      Option.some.injEq] at failed
    obtain ⟨txn, active, log, appended, phase, rfl⟩ := failed
    obtain ⟨bytes, room, log_eq, none⟩ := part appended
    exact ⟨txn, ∅, bytes, active, phase, rfl, rfl, rfl, rfl, (Loads.refl s).of_pools rfl, room, log_eq,
      fun whole => none (by simpa [IoFailure.tears] using whole)⟩
  | fsync => cases early
  | flushPage key written => cases early

end Engine

end FlintDB
