import FlintDB.Txn.CommitLog

set_option autoImplicit false

-- A run stops anywhere, the log file loses any bytes no fsync has covered, and recovery runs on what is left: every
-- page then holds the transactions whose Commit record survived, in that order.

namespace FlintDB

open Lib

/-- The records of a run that a cut leaves behind, given how many bytes of it are left. -/
def surviving (events : List Event) (bytes : Nat) : List (LogEntry Nat PageKey PageImage) :=
  within entrySize (logEntries events) bytes

/-- The end of the last record that a completed fsync covers. -/
def WalFile.coveredEnd (file : WalFile) : Nat := goodLength (scanRecords (file.content.take file.synced))

namespace Engine

def files (s : Engine) (objectId : Nat) : Option DiskManager :=
  (s.pools objectId).map BufferPool.disk

theorem fileImage_files (s : Engine) : fileImage s.files = s.onDisk := by
  funext key
  simp only [fileImage, files, onDisk]
  cases s.pools key.objectId <;> rfl

theorem numPages_files (s : Engine) (objectId : Nat) :
    (s.files objectId).map DiskManager.numPages = s.numPages objectId := by
  simp [files, numPages, Option.map_map, Function.comp_def]

theorem onDisk_start (log : LogManager) (files : Nat → Option DiskManager) :
    (start log files).onDisk = fileImage files := by
  rw [← fileImage_files]
  congr 1
  funext objectId
  simp [Engine.files, start, Option.map_map, Function.comp_def]

theorem redo_of_faithful {log kept : List (LogEntry Nat PageKey PageImage)} {events : List Event}
    (isolated : Isolated log) (isPrefix : kept <+: log)
    (updated : ∀ txnId ∈ commits log, ∀ key, Updated log txnId key ↔
      key ∈ (writesOf (accessesOf txnId events)).map Prod.fst)
    (faithful : ∀ txnId key image, .update txnId key image ∈ log → ∀ store,
      applyWrites store (writesOf (accessesOf txnId events)) key = image)
    (store : PageKey → PageImage) :
    redo store kept = applyWrites store ((commits kept).flatMap fun txnId => writesOf (accessesOf txnId events)) := by
  obtain ⟨rest, rfl⟩ := isPrefix
  rw [redo_eq_commit_order store isolated.left]
  refine applyWrites_flatMap_congr (fun txnId committed => applyWrites_eq (fun key => ?_) ?_) store
  · have everywhere : txnId ∈ commits (kept ++ rest) := by
      rw [commits_append]
      exact List.mem_append_left _ committed
    rw [mem_keys_updatesOf, ← updated txnId everywhere]
    constructor
    · rintro ⟨image, member⟩
      exact ⟨image, List.mem_append_left _ member⟩
    · rintro ⟨image, member⟩
      obtain ⟨before, after, rfl⟩ := List.append_of_mem (mem_commits.mp committed)
      have early := Isolated.update_before_commit isolated
        (show before ++ [.commit txnId] <+: _ from ⟨after ++ rest, by simp⟩) member
      exact ⟨image, List.mem_append_left _ early⟩
  · intro key image member store'
    rw [mem_updatesOf] at member
    exact faithful txnId key image (List.mem_append_left _ member) store'

namespace Logged

variable {old : List LogRecord} {init : PageKey → PageImage} {events : List Event} {s : Engine}
  {txnId : Nat} {key : PageKey}

theorem reopened (logged : Logged old init events s) {n : Nat} (oldKept : goodLength old ≤ n) :
    ∃ records, OpenedLog (old ++ records) (LogManager.open (s.log.file.content.take n)) ∧
      records.map LogRecord.entry = surviving events (n - goodLength old) := by
  obtain ⟨records, content, wal, entries⟩ := logged.file.stored
  refine ⟨within LogRecord.size records (n - goodLength old), ?_, ?_⟩
  · have opened := openedLog_cut _ wal n
    rw [within_append oldKept, ← content] at opened
    exact opened
  · rw [surviving, ← entries]
    exact within_map LogRecord.entry entrySize_entry records _

theorem surviving_isPrefix (events : List Event) (bytes : Nat) :
    surviving events bytes <+: logEntries events := within_isPrefix _ _ _

theorem durable_survives (logged : Logged old init events s) {n : Nat}
    (durable : Durable old (logEntries events) n txnId) :
    txnId ∈ commits (surviving events (n - goodLength old)) ∧
      ∀ key, Updated (logEntries events) txnId key →
        Updated (surviving events (n - goodLength old)) txnId key := by
  obtain ⟨before, isPrefix, fits⟩ := durable
  have kept : before ++ [.commit txnId] <+: surviving events (n - goodLength old) :=
    prefix_within isPrefix (by simp only [logSize] at fits; omega)
  refine ⟨mem_commits.mpr (kept.subset (by simp)), ?_⟩
  rintro key ⟨image, member⟩
  have early := logged.isolated.update_before_commit isPrefix member
  exact ⟨image, kept.subset (List.mem_append_left _ early)⟩

theorem disk_survives (logged : Logged old init events s) {n : Nat}
    (covered : ∀ txnId, Durable old (logEntries events) s.log.file.synced txnId →
      Durable old (logEntries events) n txnId) (key : PageKey) :
    s.onDisk key = init key ∨ ∃ txnId ∈ commits (surviving events (n - goodLength old)),
      Updated (surviving events (n - goodLength old)) txnId key := by
  refine (logged.disk key).imp_right ?_
  rintro ⟨txnId, durable, updated⟩
  obtain ⟨committed, updates⟩ := logged.durable_survives (covered txnId durable)
  exact ⟨txnId, committed, updates key updated⟩

theorem updated_of_committed (logged : Logged old init events s) (serial : Serial init events s)
    (committed : txnId ∈ commits (logEntries events)) :
    Updated (logEntries events) txnId key ↔
      key ∈ (writesOf (accessesOf txnId events)).map Prod.fst := by
  cases found : s.activeTxns txnId with
  | none =>
    rcases logged.ended txnId found with ⟨-, -, updated⟩ | ⟨-, unlogged⟩
    · exact updated key
    · exact absurd committed unlogged.no_commit
  | some txn =>
    have mine := logged.active txnId txn found
    unfold TxnLogged at mine
    rw [← serial.dirtied txnId txn found key]
    split at mine
    · exact absurd committed mine.no_commit
    · exact absurd committed mine.no_commit
    · exact absurd committed mine.no_commit
    · exact absurd committed mine.no_commit
    · exact absurd committed mine.1
    · exact mine.2 key
    · exact mine.2 key

theorem redo_surviving (logged : Logged old init events s) (serial : Serial init events s)
    (bytes : Nat) (store : PageKey → PageImage) :
    redo store (surviving events bytes) = applyWrites store
      ((commits (surviving events bytes)).flatMap fun txnId =>
        writesOf (accessesOf txnId events)) :=
  redo_of_faithful logged.isolated (surviving_isPrefix events bytes)
    (fun _ committed _ => logged.updated_of_committed serial committed) logged.faithful store

theorem hasPage_of_updated (logged : Logged old init events s)
    (updated : Updated (old.map LogRecord.entry ++ logEntries events) txnId key) :
    HasPage s.files key := by
  obtain ⟨n, size, within⟩ := logged.pages txnId key updated
  simp only [numPages, Option.map_eq_some_iff] at size
  obtain ⟨pool, found, rfl⟩ := size
  exact ⟨pool.disk, by simp [files, found], within⟩

theorem durable_of_covered (logged : Logged [] init events s) {n : Nat} (behind : s.log.file.coveredEnd ≤ n)
    (durable : Durable [] (logEntries events) s.log.file.synced txnId) : Durable [] (logEntries events) n txnId := by
  obtain ⟨before, isPrefix, fits⟩ := durable
  refine ⟨before, isPrefix, Nat.le_trans ?_ behind⟩
  obtain ⟨records, content, wal, entries⟩ := logged.file.stored
  simp only [List.nil_append] at content wal
  have scanned := scanRecords_cut wal.canonical s.log.file.synced
  rw [← content] at scanned
  rw [WalFile.coveredEnd, scanned, goodLength_entries (within _ _ _),
    within_map LogRecord.entry entrySize_entry, entries]
  simp only [goodLength, List.map_nil, List.sum_nil, Nat.zero_add] at fits ⊢
  exact logSize_le (prefix_within isPrefix fits)

theorem released_survives (logged : Logged [] init events s) (serial : Serial init events s) {n : Nat}
    (behind : s.log.file.coveredEnd ≤ n) (done : txnId ∈ released events) :
    txnId ∈ commits (surviving events n) := by
  rcases logged.ended txnId (serial.ended txnId done).2 with ⟨-, durable, -⟩ | ⟨undone, -⟩
  · exact (logged.durable_survives (logged.durable_of_covered behind durable)).1
  · exact absurd done undone

end Logged

/-- After a crash and a cut behind everything fsync has covered, recovery goes through and leaves
exactly the transactions whose Commit record lies before the cut, in the order of these records.
Every transaction whose Commit has released its locks is one of them. -/
theorem crash_atomicity (data : DataFiles) (events : List Event) (s : Engine) (n : Nat)
    (reached : run step (start (LogManager.open []) data.file) events = some s)
    (behind : s.log.file.coveredEnd ≤ n) :
    (∃ recovered,
      runRecovery (LogManager.open (s.log.file.content.take n)).recordsOnOpen s.files =
          some recovered ∧
        ∀ key, fileImage recovered key = applyWrites (fileImage data.file)
          ((commits (surviving events n)).flatMap fun txnId => writesOf (accessesOf txnId events))
          key) ∧
      ∀ txnId ∈ released events, txnId ∈ commits (surviving events n) := by
  have emptyLog : OpenedLog [] (LogManager.open []) :=
    openedLog_cut [] ⟨by simp, by simp, Nat.zero_le _⟩ 0
  have serial := Serial.reached reached
  have logged := Logged.reached emptyLog data.fits (by simp [Updated]) reached
  rw [onDisk_start] at serial logged
  obtain ⟨records, opened, survived⟩ := logged.reopened (n := n) (Nat.zero_le n)
  simp only [List.nil_append, goodLength, List.map_nil, List.sum_nil, Nat.sub_zero] at opened survived
  refine ⟨?_, fun txnId done => logged.released_survives serial behind done⟩
  have present : ∀ record ∈ records, record.type = .kUpdate → HasPage s.files record.key := by
    intro record member update
    have entry : .update record.txnId record.key record.pageImage ∈ logEntries events := by
      refine (Logged.surviving_isPrefix events n).subset (survived ▸ ?_)
      exact List.mem_map.mpr ⟨record, member, by simp [LogRecord.entry, update, LogRecord.key]⟩
    exact logged.hasPage_of_updated ⟨_, entry⟩
  obtain ⟨recovered, ran, -, image⟩ := runRecovery_spec records present
  refine ⟨recovered, by rw [opened.onOpen]; exact ran, fun key => ?_⟩
  rw [image, survived, fileImage_files, ← logged.redo_surviving serial]
  exact congrFun (redo_congr fun key => logged.disk_survives (n := n)
    (fun txnId => logged.durable_of_covered behind) key) key

def tornCommitEvents : List Event :=
  [.begin 1, .appendBegin 1, .allocate 1 ⟨0, 0⟩, .commit 1, .appendUpdate 1 ⟨0, 0⟩ .zero,
    .appendCommit 1, .flushBegin 1, .begin 2, .appendBegin 2, .fsync 1 4200, .flushEnd 1, .commit 2,
    .appendCommit 2]

def oneEmptyFile : DataFiles where
  file objectId := if objectId = 0 then some {} else none
  fits := by
    intro objectId disk found
    split at found
    · rename_i first
      cases found
      simp [first, DiskManager.numPages]
    · cases found

set_option maxRecDepth 100000 in
theorem crash_atomicity_torn_commit :
    ∃ s, run step (start (LogManager.open []) oneEmptyFile.file) tornCommitEvents = some s ∧
      s.log.file.coveredEnd ≤ 4250 ∧
      ∃ recovered,
        runRecovery (LogManager.open (s.log.file.content.take 4250)).recordsOnOpen s.files =
          some recovered := by
  have ran : ((run step (start (LogManager.open []) oneEmptyFile.file) tornCommitEvents).map
      fun s => decide (s.log.file.coveredEnd ≤ 4250)) = some true := by decide +kernel
  obtain ⟨s, reached, behind⟩ := Option.map_eq_some_iff.mp ran
  obtain ⟨⟨recovered, goes, -⟩, -⟩ :=
    crash_atomicity oneEmptyFile tornCommitEvents s 4250 reached (of_decide_eq_true behind)
  exact ⟨s, reached, of_decide_eq_true behind, recovered, goes⟩

end Engine

end FlintDB
