import FlintDB.Txn.Serializability
import FlintDB.Wal.Recovery

set_option autoImplicit false

-- The run starts on a log that already holds the records `old`. The invariant follows every transaction through
-- Commit: which of its Update records are in the log, where its Commit record stands, and that no page of it reaches
-- a data file before an fsync has covered that record.

namespace FlintDB

open Lib

def Event.logEntry : Event → Option (LogEntry Nat PageKey PageImage)
  | appendBegin txnId => some (.other txnId)
  | appendUpdate txnId key image => some (.update txnId key image)
  | appendCommit txnId => some (.commit txnId)
  | appendAbort txnId => some (.other txnId)
  | _ => none

def logEntries (events : List Event) : List (LogEntry Nat PageKey PageImage) :=
  events.filterMap Event.logEntry

-- The length in bytes of the record behind an entry.
def entrySize : LogEntry Nat PageKey PageImage → Nat
  | .update .. => LogRecord.recordLen .kUpdate
  | .commit _ | .other _ => LogRecord.recordLen .kCommit

def logSize (entries : List (LogEntry Nat PageKey PageImage)) : Nat := (entries.map entrySize).sum

section Entries

variable {entries rest : List (LogEntry Nat PageKey PageImage)} {event : Event}
  {events : List Event} {txnId : Nat}

theorem entrySize_entry (record : LogRecord) : entrySize record.entry = record.size := by
  cases type : record.type <;> simp [LogRecord.entry, LogRecord.size, entrySize, type] <;> rfl

theorem goodLength_entries (records : List LogRecord) :
    goodLength records = logSize (records.map LogRecord.entry) := by
  simp only [goodLength, logSize, List.map_map]
  congr 1
  exact List.map_congr_left fun record _ => (entrySize_entry record).symm

theorem goodLength_append (first second : List LogRecord) :
    goodLength (first ++ second) = goodLength first + goodLength second := by
  simp [goodLength]

theorem logSize_append : logSize (entries ++ rest) = logSize entries + logSize rest := by
  simp [logSize]

theorem logSize_le (isPrefix : entries <+: rest) : logSize entries ≤ logSize rest := by
  obtain ⟨tail, rfl⟩ := isPrefix
  rw [logSize_append]
  omega

theorem logEntries_snoc (events : List Event) (event : Event) :
    logEntries (events ++ [event]) = logEntries events ++ event.logEntry.toList := by
  simp only [logEntries, List.filterMap_append, List.filterMap_cons, List.filterMap_nil]
  cases event.logEntry <;> rfl

theorem logEntries_grow (events : List Event) (event : Event) :
    logEntries events <+: logEntries (events ++ [event]) := by
  rw [logEntries_snoc]
  exact List.prefix_append _ _

theorem logEntries_none (silent : event.logEntry = none) :
    logEntries (events ++ [event]) = logEntries events := by
  simp [logEntries_snoc, silent]

theorem mem_logEntries_snoc {entry : LogEntry Nat PageKey PageImage} :
    entry ∈ logEntries (events ++ [event]) ↔ entry ∈ logEntries events ∨ event.logEntry = some entry := by
  simp [logEntries_snoc]

theorem logEntry_update {other : Nat} {key : PageKey} {image : PageImage}
    (logs : event.logEntry = some (.update other key image)) :
    event = .appendUpdate other key image := by
  cases event <;> simp [Event.logEntry] at logs
  obtain ⟨rfl, rfl, rfl⟩ := logs
  rfl

theorem logEntry_commit {other : Nat} (logs : event.logEntry = some (.commit other)) :
    event = .appendCommit other := by
  cases event <;> simp [Event.logEntry] at logs
  rw [logs]

theorem mem_released_snoc : txnId ∈ released (events ++ [event]) ↔
    txnId ∈ released events ∨ event = .commitRelease txnId := by
  simp only [released, List.filterMap_append, List.mem_append]
  refine or_congr_right ?_
  cases event <;> simp [eq_comm]

end Entries

-- The transaction has an Update record for the page.
def Updated (entries : List (LogEntry Nat PageKey PageImage)) (txnId : Nat) (key : PageKey) : Prop :=
  ∃ image, .update txnId key image ∈ entries

structure Unlogged (entries : List (LogEntry Nat PageKey PageImage)) (txnId : Nat) : Prop where
  no_update : ∀ key, ¬ Updated entries txnId key
  no_commit : txnId ∉ commits entries

structure Covers (old : List LogRecord) (entries : List (LogEntry Nat PageKey PageImage))
    (lsn bytes : Nat) : Prop where
  numbered : lsn ≤ old.length + entries.length
  covered : ∀ before, before <+: entries → old.length + before.length ≤ lsn →
    goodLength old + logSize before ≤ bytes

def CommittedAt (old : List LogRecord) (entries : List (LogEntry Nat PageKey PageImage))
    (txnId lsn : Nat) : Prop :=
  ∃ before, before ++ [.commit txnId] <+: entries ∧ lsn = old.length + before.length + 1

def Durable (old : List LogRecord) (entries : List (LogEntry Nat PageKey PageImage))
    (bytes txnId : Nat) : Prop :=
  ∃ before, before ++ [.commit txnId] <+: entries ∧
    goodLength old + logSize (before ++ [.commit txnId]) ≤ bytes

section Covers

variable {old : List LogRecord} {entries entries' : List (LogEntry Nat PageKey PageImage)}
  {lsn lsn' bytes bytes' txnId : Nat} {key : PageKey}

theorem Covers.grow (covers : Covers old entries lsn bytes) (grown : entries <+: entries') :
    Covers old entries' lsn bytes where
  numbered := covers.numbered.trans (Nat.add_le_add_left grown.length_le _)
  covered before isPrefix within := by
    have shorter : before.length ≤ entries.length := by
      have := covers.numbered
      omega
    exact covers.covered before (List.prefix_of_prefix_length_le isPrefix grown shorter) within

theorem Covers.bytes_le (covers : Covers old entries lsn bytes) (more : bytes ≤ bytes') :
    Covers old entries lsn bytes' :=
  ⟨covers.numbered, fun before isPrefix within =>
    (covers.covered before isPrefix within).trans more⟩

theorem Covers.max (covers : Covers old entries lsn bytes) (covers' : Covers old entries lsn' bytes) :
    Covers old entries (max lsn lsn') bytes where
  numbered := Nat.max_le.mpr ⟨covers.numbered, covers'.numbered⟩
  covered before isPrefix within := by
    rcases Nat.le_total lsn lsn' with le | le
    · rw [Nat.max_eq_right le] at within
      exact covers'.covered before isPrefix within
    · rw [Nat.max_eq_left le] at within
      exact covers.covered before isPrefix within

theorem covers_whole : Covers old entries (old.length + entries.length)
    (goodLength old + logSize entries) :=
  ⟨Nat.le_refl _, fun _ isPrefix _ => Nat.add_le_add_left (logSize_le isPrefix) _⟩

theorem CommittedAt.durable (committed : CommittedAt old entries txnId lsn)
    (covers : Covers old entries lsn' bytes) (le : lsn ≤ lsn') :
    Durable old entries bytes txnId := by
  obtain ⟨before, isPrefix, rfl⟩ := committed
  exact ⟨before, isPrefix, covers.covered _ isPrefix (by simpa [Nat.add_assoc] using le)⟩

theorem CommittedAt.grow (committed : CommittedAt old entries txnId lsn)
    (grown : entries <+: entries') : CommittedAt old entries' txnId lsn := by
  obtain ⟨before, isPrefix, numbered⟩ := committed
  exact ⟨before, isPrefix.trans grown, numbered⟩

theorem Durable.grow (durable : Durable old entries bytes txnId) (grown : entries <+: entries')
    (more : bytes ≤ bytes') : Durable old entries' bytes' txnId := by
  obtain ⟨before, isPrefix, within⟩ := durable
  exact ⟨before, isPrefix.trans grown, within.trans more⟩

theorem Durable.committed (durable : Durable old entries bytes txnId) : txnId ∈ commits entries := by
  obtain ⟨before, isPrefix, -⟩ := durable
  exact mem_commits.mpr (isPrefix.subset (by simp))

theorem CommittedAt.committed (committed : CommittedAt old entries txnId lsn) :
    txnId ∈ commits entries := by
  obtain ⟨before, isPrefix, -⟩ := committed
  exact mem_commits.mpr (isPrefix.subset (by simp))

end Covers

structure WalRecords (records : List LogRecord) : Prop where
  canonical : ∀ record ∈ records, record.Canonical
  numbered : ∀ i record, records[i]? = some record → record.lsn = i + 1
  size : (encodeAll records).length ≤ maxFileSize

structure LogFile (old : List LogRecord) (events : List Event) (log : LogManager) : Prop where
  stored : ∃ records, log.file.content = encodeAll (old ++ records) ∧ WalRecords (old ++ records) ∧
    records.map LogRecord.entry = logEntries events
  nextLsn : log.nextLsn = old.length + (logEntries events).length + 1

-- A LogManager that has just been opened on these records.
structure OpenedLog (records : List LogRecord) (log : LogManager) : Prop where
  content : log.file.content = encodeAll records
  wal : WalRecords records
  onOpen : log.recordsOnOpen = records
  nextLsn : log.nextLsn = records.length + 1
  durable : log.durableLsn = 0
  synced : log.file.synced ≤ log.file.content.length

theorem WalRecords.left {records rest : List LogRecord} (wal : WalRecords (records ++ rest)) :
    WalRecords records where
  canonical record member := wal.canonical record (List.mem_append_left _ member)
  numbered i record found := by
    refine wal.numbered i record ?_
    rw [List.getElem?_append_left (List.getElem?_eq_some_iff.mp found).1]
    exact found
  size := by
    have size := wal.size
    rw [encodeAll, List.flatMap_append, List.length_append] at size
    exact Nat.le_trans (Nat.le_add_right _ _) size

theorem WalRecords.length_lt {records : List LogRecord} (wal : WalRecords records) : records.length + 1 < 2 ^ 64 := by
  have size := wal.size
  have many := length_le_goodLength records
  rw [encodeAll_length, maxFileSize] at size
  omega

theorem openedLog_cut (records : List LogRecord) (wal : WalRecords records) (n : Nat) :
    OpenedLog (within LogRecord.size records n)
      (LogManager.open ((encodeAll records).take n)) := by
  obtain ⟨content, onOpen⟩ := open_cut wal.canonical n
  obtain ⟨rest, split⟩ := within_isPrefix LogRecord.size records n
  have kept : WalRecords (within LogRecord.size records n) := by
    rw [← split] at wal
    exact wal.left
  refine ⟨content, kept, onOpen, ?_, rfl, ?_⟩
  · have scanned := onOpen
    simp only [LogManager.open] at scanned ⊢
    rw [scanned]
    split
    · rename_i last found
      rw [List.getLast?_eq_getElem?] at found
      have numbered := kept.numbered _ _ found
      have nonempty := (List.getElem?_eq_some_iff.mp found).1
      have below := kept.length_lt
      rw [wrapLsn_of_lt (by omega)]
      omega
    · rename_i empty
      rw [List.getLast?_eq_none_iff.mp empty]
      rfl
  · simp only [LogManager.open]
    split <;> simp [WalFile.ftruncate]

section LogFile

variable {old : List LogRecord} {events : List Event} {event : Event} {log log' : LogManager}

theorem LogFile.length (file : LogFile old events log) :
    log.file.content.length = goodLength old + logSize (logEntries events) := by
  obtain ⟨records, content, -, entries⟩ := file.stored
  rw [content, encodeAll_length, goodLength_append, goodLength_entries records, entries]

theorem LogFile.silent (file : LogFile old events log) (noEntry : event.logEntry = none)
    (content : log'.file.content = log.file.content) (nextLsn : log'.nextLsn = log.nextLsn) :
    LogFile old (events ++ [event]) log' where
  stored := by rw [logEntries_none noEntry, content]; exact file.stored
  nextLsn := by rw [logEntries_none noEntry, nextLsn]; exact file.nextLsn

theorem walRecords_snoc {records : List LogRecord} {record : LogRecord}
    (wal : WalRecords records) (canonical : record.Canonical)
    (numbered : record.lsn = records.length + 1) (size : (encodeAll (records ++ [record])).length ≤ maxFileSize) :
    WalRecords (records ++ [record]) where
  canonical other member := by
    rcases List.mem_append.mp member with before | last
    · exact wal.canonical other before
    · rw [List.mem_singleton.mp last]
      exact canonical
  numbered i other found := by
    rw [List.getElem?_append] at found
    split at found
    · exact wal.numbered i other found
    · rename_i beyond
      rw [List.getElem?_singleton] at found
      split at found
      · cases found
        omega
      · cases found
  size := size

theorem LogFile.append (file : LogFile old events log) {record : LogRecord} {lsn : Nat}
    (logs : event.logEntry = some record.entry)
    (appended : log.appendRecord record.type record.txnId record.objectId record.pageId
      record.payload = some (log', lsn))
    (numbered : record.lsn = log.nextLsn) (txnId : record.txnId < 2 ^ 64)
    (objectId : record.objectId < 2 ^ 32) (pageId : record.pageId < 2 ^ 32)
    (image : record.type ≠ .kUpdate → record.pageImage = .zero) :
    LogFile old (events ++ [event]) log' ∧ lsn = old.length + (logEntries events).length + 1 ∧
      log'.file.synced = log.file.synced ∧ log'.durableLsn = log.durableLsn := by
  obtain ⟨lsnEq, fits, rfl⟩ := LogManager.appendRecord_some appended
  obtain ⟨records, content, wal, entries⟩ := file.stored
  have count : records.length = (logEntries events).length := by rw [← entries, List.length_map]
  have total : (old ++ records).length + 1 = log.nextLsn := by
    rw [file.nextLsn, List.length_append, count]
  have small : record.lsn < 2 ^ 64 := by
    have below := wal.length_lt
    omega
  have encoded : recordBuf log.nextLsn record.type record.txnId record.objectId record.pageId
      record.payload = record.encode := by
    rw [← numbered]
    rfl
  have enlarged : encodeAll (old ++ records ++ [record]) = log.file.content ++ record.encode := by
    rw [content, encodeAll, encodeAll, List.flatMap_append]
    simp
  have walAfter : WalRecords (old ++ records ++ [record]) := by
    refine walRecords_snoc wal ⟨small, txnId, objectId, pageId, image⟩ (numbered.trans total.symm) ?_
    rw [enlarged, List.length_append, ← encoded]
    exact fits
  have below := walAfter.length_lt
  rw [List.length_append, List.length_singleton, total] at below
  rw [wrapLsn_of_lt (by omega)]
  refine ⟨⟨⟨records ++ [record], ?_, ?_, ?_⟩, ?_⟩, by rw [lsnEq, file.nextLsn], rfl, rfl⟩
  · rw [encoded, ← List.append_assoc, enlarged]
  · rw [← List.append_assoc]
    exact walAfter
  · rw [List.map_append, entries, logEntries_snoc, logs]
    rfl
  · simp only [logEntries_snoc, logs, Option.toList_some, List.length_append,
      List.length_singleton, file.nextLsn]
    omega

theorem LogFile.lastLsn (file : LogFile old events log) :
    log.lastLsn = old.length + (logEntries events).length := by
  obtain ⟨records, -, wal, entries⟩ := file.stored
  have count : records.length = (logEntries events).length := by rw [← entries, List.length_map]
  have below := wal.length_lt
  rw [List.length_append, count] at below
  rw [LogManager.lastLsn, file.nextLsn, wrapLsn_pred (Nat.succ_pos _) (by omega), Nat.succ_sub_one]

end LogFile

def TxnLogged (old : List LogRecord) (entries : List (LogEntry Nat PageKey PageImage))
    (synced txnId : Nat) (txn : Transaction) : Prop :=
  match txn.phase with
  | .beginning | .running | .discarding _ | .discarded => Unlogged entries txnId
  | .logging pending => txnId ∉ commits entries ∧
    ∀ key, Updated entries txnId key ↔ key ∈ txn.dirtiedPages ∧ key ∉ pending
  | .forcing lsn => CommittedAt old entries txnId lsn ∧
    ∀ key, Updated entries txnId key ↔ key ∈ txn.dirtiedPages
  | .flushing _ => Durable old entries synced txnId ∧
    ∀ key, Updated entries txnId key ↔ key ∈ txn.dirtiedPages

def EndLogged (old : List LogRecord) (events : List Event) (synced txnId : Nat) : Prop :=
  (txnId ∈ released events ∧ Durable old (logEntries events) synced txnId ∧
      ∀ key, Updated (logEntries events) txnId key ↔
        key ∈ (writesOf (accessesOf txnId events)).map Prod.fst) ∨
    (txnId ∉ released events ∧ Unlogged (logEntries events) txnId)

def Foreign (event : Event) (txnId : Nat) : Prop :=
  txnId ≠ event.txnId ∨
    (event.logEntry = none ∧ event.access = none ∧ ∀ other, event ≠ .commitRelease other)

section Frame

variable {old : List LogRecord} {events : List Event} {event : Event} {txnId : Nat}
  {txn : Transaction} {key : PageKey} {synced synced' : Nat}

theorem updated_foreign {entries : List (LogEntry Nat PageKey PageImage)} (foreign : Foreign event txnId) :
    Updated (entries ++ event.logEntry.toList) txnId key ↔ Updated entries txnId key := by
  refine exists_congr fun image => ?_
  rw [List.mem_append, Option.mem_toList]
  refine or_iff_left fun logs => ?_
  rcases foreign with other | ⟨silent, -⟩
  · rw [logEntry_update logs] at other
    exact other rfl
  · rw [silent] at logs
    cases logs

theorem commits_foreign {entries : List (LogEntry Nat PageKey PageImage)} (foreign : Foreign event txnId) :
    txnId ∈ commits (entries ++ event.logEntry.toList) ↔ txnId ∈ commits entries := by
  rw [mem_commits, mem_commits, List.mem_append, Option.mem_toList]
  refine or_iff_left fun logs => ?_
  rcases foreign with other | ⟨silent, -⟩
  · rw [logEntry_commit logs] at other
    exact other rfl
  · rw [silent] at logs
    cases logs

theorem accessesOf_foreign (foreign : Foreign event txnId) :
    accessesOf txnId (events ++ [event]) = accessesOf txnId events := by
  rcases foreign with other | ⟨-, noAccess, -⟩
  · exact accessesOf_other (Ne.symm other)
  · exact accessesOf_none noAccess

theorem released_foreign (foreign : Foreign event txnId) :
    txnId ∈ released (events ++ [event]) ↔ txnId ∈ released events := by
  rw [mem_released_snoc]
  refine or_iff_left ?_
  rintro rfl
  rcases foreign with other | ⟨-, -, unreleased⟩
  · exact other rfl
  · exact unreleased txnId rfl

theorem unlogged_foreign {entries : List (LogEntry Nat PageKey PageImage)} (foreign : Foreign event txnId) :
    Unlogged (entries ++ event.logEntry.toList) txnId ↔ Unlogged entries txnId := by
  constructor
  · exact fun ⟨noUpdate, noCommit⟩ =>
      ⟨fun key updated => noUpdate key ((updated_foreign foreign).mpr updated),
        fun committed => noCommit ((commits_foreign foreign).mpr committed)⟩
  · exact fun ⟨noUpdate, noCommit⟩ =>
      ⟨fun key updated => noUpdate key ((updated_foreign foreign).mp updated),
        fun committed => noCommit ((commits_foreign foreign).mp committed)⟩

theorem TxnLogged.foreign (logged : TxnLogged old (logEntries events) synced txnId txn)
    (foreign : Foreign event txnId) (more : synced ≤ synced') :
    TxnLogged old (logEntries (events ++ [event])) synced' txnId txn := by
  have grown := logEntries_grow events event
  rw [logEntries_snoc] at grown ⊢
  unfold TxnLogged at logged ⊢
  cases phase : txn.phase with
  | beginning | running | discarding | discarded =>
    simp only [phase] at logged ⊢
    exact (unlogged_foreign foreign).mpr logged
  | logging pending =>
    simp only [phase, updated_foreign foreign, commits_foreign foreign] at logged ⊢
    exact logged
  | forcing lsn =>
    simp only [phase, updated_foreign foreign] at logged ⊢
    exact ⟨logged.1.grow grown, logged.2⟩
  | flushing pending =>
    simp only [phase, updated_foreign foreign] at logged ⊢
    exact ⟨logged.1.grow grown more, logged.2⟩

theorem EndLogged.foreign (logged : EndLogged old events synced txnId)
    (foreign : Foreign event txnId) (more : synced ≤ synced') :
    EndLogged old (events ++ [event]) synced' txnId := by
  have grown := logEntries_grow events event
  rw [EndLogged, logEntries_snoc] at *
  rcases logged with ⟨done, durable, updated⟩ | ⟨undone, unlogged⟩
  · refine .inl ⟨(released_foreign foreign).mpr done, durable.grow grown more, fun key => ?_⟩
    rw [updated_foreign foreign, accessesOf_foreign foreign]
    exact updated key
  · exact .inr ⟨fun done => undone ((released_foreign foreign).mp done),
      (unlogged_foreign foreign).mpr unlogged⟩

end Frame

namespace Engine

structure Flushed (old : List LogRecord) (events : List Event) (s : Engine) : Prop where
  synced_le : s.log.file.synced ≤ s.log.file.content.length
  durable : Covers old (logEntries events) s.log.durableLsn s.log.file.synced
  flusher : ∀ flusher, s.flusher = some flusher →
    Covers old (logEntries events) flusher.toCover flusher.startLength ∧
      (flusher.fsynced = true → flusher.startLength ≤ s.log.file.synced)

structure Logged (old : List LogRecord) (init : PageKey → PageImage) (events : List Event)
    (s : Engine) : Prop where
  file : LogFile old events s.log
  flushed : Flushed old events s
  ids : s.nextTxnId < 2 ^ 64
  fits : ∀ objectId n, s.numPages objectId = some n → objectId < 2 ^ 32 ∧ n < 2 ^ 32
  pages : ∀ txnId key, Updated (old.map LogRecord.entry ++ logEntries events) txnId key →
    ∃ n, s.numPages key.objectId = some n ∧ key.pageId < n
  isolated : Isolated (logEntries events)
  faithful : ∀ txnId key image, .update txnId key image ∈ logEntries events → ∀ store,
    applyWrites store (writesOf (accessesOf txnId events)) key = image
  active : ∀ txnId txn, s.activeTxns txnId = some txn →
    TxnLogged old (logEntries events) s.log.file.synced txnId txn
  ended : ∀ txnId, s.activeTxns txnId = none → EndLogged old events s.log.file.synced txnId
  disk : ∀ key, s.onDisk key = init key ∨
    ∃ txnId, Durable old (logEntries events) s.log.file.synced txnId ∧
      Updated (logEntries events) txnId key

namespace Logged

variable {old : List LogRecord} {init : PageKey → PageImage} {events : List Event} {event : Event}
  {s s' : Engine} {txnId : Nat} {txn : Transaction}

theorem next (logged : Logged old init events s)
    (file : LogFile old (events ++ [event]) s'.log) (flushed : Flushed old (events ++ [event]) s')
    (synced : s.log.file.synced ≤ s'.log.file.synced) (ids : s'.nextTxnId < 2 ^ 64)
    (sizes : ∀ objectId, Grows (s.numPages objectId) (s'.numPages objectId))
    (others : ∀ other, other ≠ event.txnId → s'.activeTxns other = s.activeTxns other)
    (active : ∀ txn, s'.activeTxns event.txnId = some txn →
      TxnLogged old (logEntries (events ++ [event])) s'.log.file.synced event.txnId txn)
    (ended : s'.activeTxns event.txnId = none →
      EndLogged old (events ++ [event]) s'.log.file.synced event.txnId)
    (permits : ∀ entry, event.logEntry = some entry → Permits (logEntries events) entry)
    (updates : ∀ key image, event = .appendUpdate event.txnId key image →
      (∀ store, applyWrites store (writesOf (accessesOf event.txnId events)) key = image) ∧
        ∃ n, s.numPages key.objectId = some n ∧ key.pageId < n)
    (silent : event.access = none ∨ Unlogged (logEntries events) event.txnId)
    (disk : ∀ key, s'.onDisk key = s.onDisk key ∨
      (Durable old (logEntries (events ++ [event])) s'.log.file.synced event.txnId ∧
        Updated (logEntries (events ++ [event])) event.txnId key)) :
    Logged old init (events ++ [event]) s' := by
  have grown := logEntries_grow events event
  have hasPage : ∀ key : PageKey, (∃ n, s.numPages key.objectId = some n ∧ key.pageId < n) →
      ∃ n, s'.numPages key.objectId = some n ∧ key.pageId < n := by
    rintro key ⟨n, size, within⟩
    rcases sizes key.objectId with same | ⟨m, size', -, grownSize⟩
    · exact ⟨n, same.trans size, within⟩
    · rw [size] at size'
      cases size'
      exact ⟨n + 1, grownSize, Nat.lt_succ_of_lt within⟩
  refine {
    file := file, flushed := flushed, ids := ids
    fits := ?_, pages := ?_, isolated := ?_, faithful := ?_, active := ?_, ended := ?_, disk := ?_ }
  · intro objectId n size
    rcases sizes objectId with same | ⟨m, size', room, grownSize⟩
    · exact logged.fits objectId n (same ▸ size)
    · rw [size] at grownSize
      cases grownSize
      exact ⟨(logged.fits objectId m size').1, room⟩
  · rintro other key ⟨image, member⟩
    rw [logEntries_snoc, ← List.append_assoc, List.mem_append, Option.mem_toList] at member
    rcases member with before | logs
    · exact hasPage key (logged.pages other key ⟨image, before⟩)
    · have here := logEntry_update logs
      subst here
      exact hasPage key (updates key image rfl).2
  · rw [logEntries_snoc]
    cases logs : event.logEntry with
    | none => simpa using logged.isolated
    | some entry => exact isolated_snoc.mpr ⟨logged.isolated, permits entry logs⟩
  · intro other key image member store
    rcases mem_logEntries_snoc.mp member with before | logs
    · have same : accessesOf other (events ++ [event]) = accessesOf other events := by
        rcases silent with noAccess | unlogged
        · exact accessesOf_none noAccess
        · refine accessesOf_other ?_
          rintro rfl
          exact unlogged.no_update key ⟨image, before⟩
      rw [same]
      exact logged.faithful other key image before store
    · have here := logEntry_update logs
      subst here
      rw [accessesOf_none rfl]
      exact (updates key image rfl).1 store
  · intro other found present
    by_cases same : other = event.txnId
    · subst same
      exact active found present
    · exact (logged.active other found (others other same ▸ present)).foreign (.inl same) synced
  · intro other gone
    by_cases same : other = event.txnId
    · subst same
      exact ended gone
    · exact (logged.ended other (others other same ▸ gone)).foreign (.inl same) synced
  · intro key
    rcases disk key with same | ⟨durable, updated⟩
    · rw [same]
      refine (logged.disk key).imp_right ?_
      rintro ⟨other, durable, image, member⟩
      exact ⟨other, durable.grow grown synced, image, grown.subset member⟩
    · exact .inr ⟨_, durable, updated⟩

theorem quiet (logged : Logged old init events s) (event : Event)
    (noEntry : event.logEntry = none)
    (log : s'.log = s.log) (flusher : s'.flusher = s.flusher) (ids : s'.nextTxnId < 2 ^ 64)
    (sizes : ∀ objectId, Grows (s.numPages objectId) (s'.numPages objectId))
    (others : ∀ other, other ≠ event.txnId → s'.activeTxns other = s.activeTxns other)
    (active : ∀ txn, s'.activeTxns event.txnId = some txn →
      TxnLogged old (logEntries events) s.log.file.synced event.txnId txn)
    (ended : s'.activeTxns event.txnId = none →
      EndLogged old (events ++ [event]) s.log.file.synced event.txnId)
    (silent : event.access = none ∨ Unlogged (logEntries events) event.txnId)
    (disk : ∀ key, s'.onDisk key = s.onDisk key ∨
      (Durable old (logEntries events) s.log.file.synced event.txnId ∧
        Updated (logEntries events) event.txnId key)) :
    Logged old init (events ++ [event]) s' := by
  have entries : logEntries (events ++ [event]) = logEntries events := logEntries_none noEntry
  refine logged.next (logged.file.silent noEntry (by rw [log]) (by rw [log])) ⟨?_, ?_, ?_⟩
    (by rw [log]) ids sizes others ?_ ?_ (by simp [noEntry]) (fun key image appends => ?_) silent ?_
  · rw [log]
    exact logged.flushed.synced_le
  · rw [entries, log]
    exact logged.flushed.durable
  · rw [entries, log, flusher]
    exact logged.flushed.flusher
  · rw [entries, log]
    exact active
  · rw [log]
    exact ended
  · rw [appends] at noEntry
    cases noEntry
  · rw [entries, log]
    exact disk

theorem idles (logged : Logged old init events s)
    (quietly : event.logEntry = none ∧ event.access = none ∧ ∀ other, event ≠ .commitRelease other)
    (content : s'.log.file.content = s.log.file.content) (nextLsn : s'.log.nextLsn = s.log.nextLsn)
    (flushed : Flushed old events s') (synced : s.log.file.synced ≤ s'.log.file.synced)
    (ids : s'.nextTxnId = s.nextTxnId) (pools : s'.pools = s.pools)
    (txns : s'.activeTxns = s.activeTxns) : Logged old init (events ++ [event]) s' := by
  have entries : logEntries (events ++ [event]) = logEntries events := logEntries_none quietly.1
  refine logged.next (logged.file.silent quietly.1 content nextLsn) ?_ synced
    (by rw [ids]; exact logged.ids) (fun objectId => .inl (by simp only [numPages, pools]))
    (fun other _ => by rw [txns]) (fun txn present => ?_) (fun gone => ?_) (by simp [quietly.1])
    (fun key image appends => ?_) (.inl quietly.2.1)
    fun key => .inl (by rw [onDisk_eq_of_pools pools])
  · exact ⟨flushed.synced_le, by rw [entries]; exact flushed.durable,
      by rw [entries]; exact flushed.flusher⟩
  · exact (logged.active _ txn (txns ▸ present)).foreign (.inr quietly) synced
  · exact (logged.ended _ (txns ▸ gone)).foreign (.inr quietly) synced
  · rw [appends] at quietly
    cases quietly.1

theorem appends {log : LogManager} {lsn : Nat} {txn' : Transaction}
    (logged : Logged old init events s) (event : Event) (record : LogRecord)
    (logs : event.logEntry = some record.entry)
    (appended : s.log.appendRecord record.type record.txnId record.objectId record.pageId
      record.payload = some (log, lsn))
    (numbered : record.lsn = s.log.nextLsn) (txnId : record.txnId < 2 ^ 64)
    (objectId : record.objectId < 2 ^ 32) (pageId : record.pageId < 2 ^ 32)
    (image : record.type ≠ .kUpdate → record.pageImage = .zero)
    (log_eq : s'.log = log) (flusher : s'.flusher = s.flusher) (ids : s'.nextTxnId = s.nextTxnId)
    (loads : Loads s s') (noAccess : event.access = none)
    (after : s'.activeTxns = Function.update s.activeTxns event.txnId (some txn'))
    (permits : Permits (logEntries events) record.entry)
    (updates : ∀ key image, event = .appendUpdate event.txnId key image →
      (∀ store, applyWrites store (writesOf (accessesOf event.txnId events)) key = image) ∧
        ∃ n, s.numPages key.objectId = some n ∧ key.pageId < n)
    (active : lsn = old.length + (logEntries events).length + 1 →
      TxnLogged old (logEntries events ++ [record.entry]) s.log.file.synced event.txnId txn') :
    Logged old init (events ++ [event]) s' := by
  subst log_eq
  obtain ⟨file, lsnEq, synced, durable⟩ := logged.file.append logs appended numbered txnId objectId
    pageId image
  have grown := logEntries_grow events event
  have entries : logEntries (events ++ [event]) = logEntries events ++ [record.entry] := by
    simp [logEntries_snoc, logs]
  refine logged.next file ⟨?_, ?_, ?_⟩ synced.ge (by rw [ids]; exact logged.ids) loads.sizes
    (fun other different => by simp [after, different]) (fun found present => ?_) (fun gone => ?_)
    (fun entry here => ?_) updates (.inl noAccess) fun key => .inl (congrFun loads.onDisk key)
  · have before := logged.flushed.synced_le
    rw [logged.file.length] at before
    rw [synced, file.length]
    exact before.trans (Nat.add_le_add_left (logSize_le grown) _)
  · rw [durable, synced]
    exact logged.flushed.durable.grow grown
  · intro found present
    rw [flusher] at present
    obtain ⟨covers, done⟩ := logged.flushed.flusher found present
    exact ⟨covers.grow grown, by rw [synced]; exact done⟩
  · rw [after, Function.update_self] at present
    cases present
    rw [entries, synced]
    exact active lsnEq
  · simp [after] at gone
  · rw [logs] at here
    cases here
    exact permits

theorem unlogged_of_running (logged : Logged old init events s)
    (active : s.activeTxns txnId = some txn) (running : txn.phase = .running) :
    Unlogged (logEntries events) txnId := by
  have mine := logged.active txnId txn active
  simpa only [TxnLogged, running] using mine

theorem proceeds {txn' : Transaction} (logged : Logged old init events s) (event : Event)
    (noEntry : event.logEntry = none) (log : s'.log = s.log) (flusher : s'.flusher = s.flusher)
    (ids : s'.nextTxnId = s.nextTxnId)
    (sizes : ∀ objectId, Grows (s.numPages objectId) (s'.numPages objectId))
    (after : s'.activeTxns = Function.update s.activeTxns event.txnId (some txn'))
    (mine : TxnLogged old (logEntries events) s.log.file.synced event.txnId txn')
    (silent : event.access = none ∨ Unlogged (logEntries events) event.txnId)
    (disk : ∀ key, s'.onDisk key = s.onDisk key ∨
      (Durable old (logEntries events) s.log.file.synced event.txnId ∧
        Updated (logEntries events) event.txnId key)) :
    Logged old init (events ++ [event]) s' := by
  refine logged.quiet event noEntry log flusher (by rw [ids]; exact logged.ids) sizes
    (fun other different => by simp [after, different]) (fun found present => ?_)
    (fun gone => by simp [after] at gone) silent disk
  rw [after, Function.update_self] at present
  cases present
  exact mine

theorem runs (logged : Logged old init events s) (event : Event) (txn' : Transaction)
    (active : s.activeTxns event.txnId = some txn) (running : txn.phase = .running)
    (running' : txn'.phase = .running) (noEntry : event.logEntry = none) (log : s'.log = s.log)
    (flusher : s'.flusher = s.flusher) (ids : s'.nextTxnId = s.nextTxnId)
    (sizes : ∀ objectId, Grows (s.numPages objectId) (s'.numPages objectId))
    (after : s'.activeTxns = Function.update s.activeTxns event.txnId (some txn'))
    (disk : ∀ key, s'.onDisk key = s.onDisk key) : Logged old init (events ++ [event]) s' := by
  have unlogged := logged.unlogged_of_running active running
  refine logged.proceeds event noEntry log flusher ids sizes after ?_ (.inr unlogged) fun key =>
    .inl (disk key)
  simpa only [TxnLogged, running'] using unlogged

theorem begins (logged : Logged old init events s) (serial : Serial init events s)
    (stepped : s.step (.begin txnId) = some s') : Logged old init (events ++ [.begin txnId]) s' := by
  obtain ⟨next, small, rfl⟩ := step_begin stepped
  have fresh : s.activeTxns txnId = none := by
    by_contra active
    exact absurd (serial.born txnId active) (by omega)
  have unlogged : Unlogged (logEntries events) txnId := by
    rcases logged.ended txnId fresh with ⟨done, -⟩ | ⟨-, unlogged⟩
    · exact absurd (serial.ended txnId done).1 (by omega)
    · exact unlogged
  refine logged.quiet (.begin txnId) rfl rfl rfl small (fun _ => .inl rfl)
    (fun _ different => Function.update_of_ne different _ _)
    (fun txn present => ?_) (fun gone => by simp [setTxn, Event.txnId] at gone) (.inl rfl)
    fun _ => .inl rfl
  simp only [setTxn, Event.txnId, Function.update_self, Option.some.injEq] at present
  subst present
  exact unlogged

theorem appendsUpdate (logged : Logged old init events s) (serial : Serial init events s)
    {key : PageKey} {image : PageImage}
    (stepped : s.step (.appendUpdate txnId key image) = some s') :
    Logged old init (events ++ [.appendUpdate txnId key image]) s' := by
  obtain ⟨txn, pending, pools, log, lsn, active, phase, member, imageEq, appended, rfl, loads,
    within⟩ := step_appendUpdate stepped
  obtain ⟨n, size, inFile⟩ := within serial.wellFormed
  obtain ⟨objectFits, sizeFits⟩ := logged.fits key.objectId n size
  have born := serial.born txnId (by simp [active])
  have ids := logged.ids
  have mine : key ∈ txn.dirtiedPages := serial.dirtied_of_pending active phase member
  obtain ⟨uncommitted, updated⟩ : txnId ∉ commits (logEntries events) ∧ ∀ key,
      Updated (logEntries events) txnId key ↔ key ∈ txn.dirtiedPages ∧ key ∉ pending := by
    have logged := logged.active txnId txn active
    simpa only [TxnLogged, phase] using logged
  have written : ∀ store, applyWrites store (writesOf (accessesOf txnId events)) key = image := by
    intro store
    have state := serial.dirty txnId txn active key mine
    rw [phase] at state
    rw [imageEq, state.1]
    exact applyWrites_congr _ _ _ _ (.inl ((serial.dirtied txnId txn active key).mp mine))
  -- everyone else who updated the page has let go of it, so it has committed
  have permits : Permits (logEntries events) (.update txnId key image) := by
    refine ⟨uncommitted, fun other different updatedBy => ?_⟩
    cases found : s.activeTxns other with
    | none =>
      rcases logged.ended other found with ⟨-, durable, -⟩ | ⟨-, unlogged⟩
      · exact durable.committed
      · exact absurd updatedBy (unlogged.no_update key)
    | some txn' =>
      have clean : key ∉ txn'.dirtiedPages := serial.not_dirtied_by_other
        (.inl (serial.exclusive txnId txn active key mine)) found different
      have theirs := logged.active other txn' found
      unfold TxnLogged at theirs
      split at theirs
      · exact absurd updatedBy (theirs.no_update key)
      · exact absurd updatedBy (theirs.no_update key)
      · exact absurd updatedBy (theirs.no_update key)
      · exact absurd updatedBy (theirs.no_update key)
      · exact absurd ((theirs.2 key).mp updatedBy).1 clean
      · exact theirs.1.committed
      · exact theirs.1.committed
  refine logged.appends (.appendUpdate txnId key image)
    ⟨s.log.nextLsn, .kUpdate, txnId, key.objectId, key.pageId, image⟩
    rfl appended rfl (by simp only; omega) objectFits (by simp only; omega) (by simp) rfl rfl rfl
    loads rfl rfl permits (fun key' image' same => ?_) fun _ => ?_
  · simp only [Event.txnId, Event.appendUpdate.injEq, true_and] at same
    obtain ⟨rfl, rfl⟩ := same
    exact ⟨written, n, size, inFile⟩
  · simp only [TxnLogged, LogRecord.entry, Event.txnId]
    refine ⟨by simpa using uncommitted, fun other => ?_⟩
    have before : Updated (logEntries events ++ [.update txnId key image]) txnId other ↔
        Updated (logEntries events) txnId other ∨ other = key := by
      simp [Updated, exists_or]
    rw [before, updated other, Finset.mem_erase]
    by_cases same : other = key
    · simp [same, mine]
    · simp [same]

theorem appendsCommit (logged : Logged old init events s) (serial : Serial init events s)
    (stepped : s.step (.appendCommit txnId) = some s') :
    Logged old init (events ++ [.appendCommit txnId]) s' := by
  obtain ⟨txn, log, lsn, active, phase, appended, rfl⟩ := step_appendCommit stepped
  have born := serial.born txnId (by simp [active])
  have ids := logged.ids
  obtain ⟨uncommitted, updated⟩ : txnId ∉ commits (logEntries events) ∧ ∀ key,
      Updated (logEntries events) txnId key ↔ key ∈ txn.dirtiedPages ∧ key ∉ (∅ : Finset PageKey) := by
    have logged := logged.active txnId txn active
    simpa only [TxnLogged, phase] using logged
  refine logged.appends (.appendCommit txnId)
    { lsn := s.log.nextLsn, type := .kCommit, txnId := txnId }
    rfl appended rfl (by simp only; omega) (by simp only; decide) (by simp only; decide)
    (fun _ => rfl) rfl rfl rfl
    ((Loads.refl s).of_pools rfl) rfl rfl uncommitted (by simp) fun numbered => ?_
  simp only [TxnLogged, LogRecord.entry, Event.txnId]
  refine ⟨⟨logEntries events, List.prefix_rfl, numbered⟩, fun key => ?_⟩
  have before : Updated (logEntries events ++ [.commit txnId]) txnId key ↔
      Updated (logEntries events) txnId key := by
    simp [Updated]
  rw [before, updated key]
  simp

theorem notes {type : LogRecordType} {log : LogManager} {lsn : Nat} {phase : Phase}
    (logged : Logged old init events s) (serial : Serial init events s) (event : Event)
    (active : s.activeTxns event.txnId = some txn)
    (logs : event.logEntry = some (.other event.txnId)) (noAccess : event.access = none)
    (other : type = .kBegin ∨ type = .kAbort)
    (appended : s.log.appendRecord type event.txnId invalidObjectId invalidPageId [] =
      some (log, lsn))
    (unlogged : Unlogged (logEntries events) event.txnId)
    (open_phase : phase = .running ∨ phase = .discarded) :
    Logged old init (events ++ [event])
      { s.setTxn event.txnId { txn with phase := phase } with log := log } := by
  have born := serial.born event.txnId (by simp [active])
  have ids := logged.ids
  have entry : (⟨s.log.nextLsn, type, event.txnId, invalidObjectId, invalidPageId, .zero⟩ :
      LogRecord).entry = .other event.txnId := by
    rcases other with rfl | rfl <;> rfl
  have buffer : (⟨s.log.nextLsn, type, event.txnId, invalidObjectId, invalidPageId, .zero⟩ :
      LogRecord).payload = [] := by
    rcases other with rfl | rfl <;> rfl
  refine logged.appends event
    { lsn := s.log.nextLsn, type := type, txnId := event.txnId }
    (by rw [logs, entry]) (buffer ▸ appended) rfl (by simp only; omega) (by simp only; decide) (by simp only; decide)
    (fun _ => rfl) rfl rfl rfl ((Loads.refl s).of_pools rfl) noAccess rfl
    (by rw [entry]; trivial) (fun key image same => ?_) fun _ => ?_
  · rw [same] at logs
    cases logs
  · have still : Unlogged (logEntries events ++ [.other event.txnId]) event.txnId :=
      ⟨fun key updated => unlogged.no_update key (by simpa [Updated] using updated),
        by simpa using unlogged.no_commit⟩
    rw [entry]
    rcases open_phase with rfl | rfl <;> exact still

theorem flushBegins (logged : Logged old init events s)
    (stepped : s.step (.flushBegin txnId) = some s') :
    Logged old init (events ++ [.flushBegin txnId]) s' := by
  obtain ⟨txn, lsn, active, phase, -, -, rfl⟩ := step_flushBegin stepped
  refine logged.idles ⟨rfl, rfl, by simp⟩ rfl rfl
    ⟨logged.flushed.synced_le, logged.flushed.durable, ?_⟩ (Nat.le_refl _) rfl rfl rfl
  rintro flusher present
  cases present
  refine ⟨?_, by simp⟩
  obtain ⟨⟨before, isPrefix, numbered⟩, -⟩ : CommittedAt old (logEntries events) txnId lsn ∧
      ∀ key, Updated (logEntries events) txnId key ↔ key ∈ txn.dirtiedPages := by
    have logged := logged.active txnId txn active
    simpa only [TxnLogged, phase] using logged
  have length := isPrefix.length_le
  simp only [List.length_append, List.length_singleton] at length
  have last : max lsn s.log.lastLsn = old.length + (logEntries events).length := by
    rw [logged.file.lastLsn, numbered]
    omega
  simp only [last, logged.file.length]
  exact covers_whole

theorem fsyncs {covered : Nat} (logged : Logged old init events s)
    (stepped : s.step (.fsync txnId covered) = some s') :
    Logged old init (events ++ [.fsync txnId covered]) s' := by
  obtain ⟨flusher, flushing, -, started, within, rfl⟩ := step_fsync stepped
  refine logged.idles ⟨rfl, rfl, by simp⟩ rfl rfl
    ⟨Nat.max_le.mpr ⟨logged.flushed.synced_le, within⟩,
      logged.flushed.durable.bytes_le (Nat.le_max_left _ _), ?_⟩ (Nat.le_max_left _ _) rfl rfl rfl
  rintro found present
  cases present
  exact ⟨(logged.flushed.flusher flusher flushing).1, fun _ =>
    started.trans (Nat.le_max_right _ _)⟩

theorem flushEnds (logged : Logged old init events s)
    (stepped : s.step (.flushEnd txnId) = some s') :
    Logged old init (events ++ [.flushEnd txnId]) s' := by
  obtain ⟨flusher, flushing, -, done, rfl⟩ := step_flushEnd stepped
  obtain ⟨covers, synced⟩ := logged.flushed.flusher flusher flushing
  exact logged.idles ⟨rfl, rfl, by simp⟩ rfl rfl
    ⟨logged.flushed.synced_le, logged.flushed.durable.max (covers.bytes_le (synced done)), by simp⟩ (Nat.le_refl _) rfl rfl
    rfl

theorem start {log : LogManager} {files : Nat → Option DiskManager}
    (opened : OpenedLog old log)
    (fits : ∀ objectId disk, files objectId = some disk →
      objectId < 2 ^ 32 ∧ disk.numPages < 2 ^ 32)
    (present : ∀ txnId key, Updated (old.map LogRecord.entry) txnId key → HasPage files key) :
    Logged old (Engine.start log files).onDisk [] (Engine.start log files) where
  file := ⟨⟨[], by rw [List.append_nil]; exact opened.content,
    by rw [List.append_nil]; exact opened.wal, rfl⟩, opened.nextLsn⟩
  flushed := by
    refine ⟨opened.synced, ⟨by simp [Engine.start, opened.durable], fun before isPrefix within => ?_⟩,
      by simp [Engine.start]⟩
    have empty : before = [] := List.prefix_nil.mp isPrefix
    have noOld : old = [] := by
      simp only [Engine.start, opened.durable] at within
      exact List.length_eq_zero_iff.mp (by omega)
    simp [empty, noOld, goodLength, logSize]
  ids := by simp [Engine.start]
  fits objectId n size := by
    simp only [numPages, Engine.start, Option.map_map, Option.map_eq_some_iff] at size
    obtain ⟨disk, found, rfl⟩ := size
    exact fits objectId disk found
  pages txnId key updated := by
    have before : Updated (old.map LogRecord.entry) txnId key := by
      simpa [logEntries] using updated
    obtain ⟨disk, found, within⟩ := present txnId key before
    exact ⟨disk.numPages, by simp [numPages, Engine.start, found], within⟩
  isolated := isolated_nil
  faithful _ _ _ member := by cases member
  active _ _ present := by cases present
  ended txnId _ := by
    refine .inr ⟨by simp [released], ⟨?_, by simp [logEntries, commits]⟩⟩
    rintro key ⟨image, member⟩
    cases member
  disk _ := .inl rfl

theorem step (logged : Logged old init events s) (serial : Serial init events s)
    (stepped : s.step event = some s') : Logged old init (events ++ [event]) s' := by
  cases event with
  | begin txnId => exact logged.begins serial stepped
  | appendBegin txnId =>
    obtain ⟨txn, log, lsn, active, phase, appended, rfl⟩ := step_appendBegin stepped
    have mine := logged.active txnId txn active
    simp only [TxnLogged, phase] at mine
    exact logged.notes serial (.appendBegin txnId) active rfl rfl (.inl rfl) appended mine
      (.inl rfl)
  | lock txnId key mode =>
    obtain ⟨txn, active, running, same | ⟨next, -, same⟩⟩ := step_lock stepped <;> subst same
    all_goals
      exact logged.runs (.lock txnId key mode) txn active running running rfl rfl
        rfl rfl (fun _ => .inl rfl) (Function.update_eq_self_iff.mpr active.symm).symm fun _ => rfl
  | read txnId key image =>
    obtain ⟨txn, pools, active, running, -, -, rfl, loads⟩ := step_read stepped
    exact logged.runs (.read txnId key image) txn active running running rfl rfl
      rfl rfl loads.sizes (Function.update_eq_self_iff.mpr active.symm).symm
      (congrFun loads.onDisk)
  | write txnId key image =>
    obtain ⟨txn, pools, active, running, -, rfl, touches, -, onDisk, -⟩ := step_write stepped
    exact logged.runs (.write txnId key image)
      { txn with dirtiedPages := insert key txn.dirtiedPages } active running running rfl
      rfl rfl rfl touches.sizes rfl (touches.same_onDisk onDisk)
  | allocate txnId key =>
    obtain ⟨txn, pools, locks, active, running, -, rfl, touches, -, before, -, onDisk, -⟩ :=
      step_allocate serial.wellFormed stepped
    exact logged.runs (.allocate txnId key)
      { txn with dirtiedPages := insert key txn.dirtiedPages } active running running rfl
      rfl rfl rfl touches.sizes rfl (touches.same_onDisk (onDisk.trans before.symm))
  | commit txnId =>
    obtain ⟨txn, active, running, rfl⟩ := step_commit stepped
    have unlogged := logged.unlogged_of_running active running
    refine logged.proceeds (.commit txnId) rfl rfl rfl rfl (fun _ => .inl rfl) rfl ?_
      (.inl rfl) fun _ => .inl rfl
    exact ⟨unlogged.no_commit, fun key => ⟨fun updated => absurd updated (unlogged.no_update key),
      fun ⟨mine, notMine⟩ => absurd mine notMine⟩⟩
  | appendUpdate txnId key image => exact logged.appendsUpdate serial stepped
  | appendCommit txnId => exact logged.appendsCommit serial stepped
  | flushBegin txnId => exact logged.flushBegins stepped
  | fsync txnId covered => exact logged.fsyncs stepped
  | flushEnd txnId => exact logged.flushEnds stepped
  | flushReturn txnId =>
    obtain ⟨txn, lsn, active, phase, durable, rfl⟩ := step_flushReturn stepped
    have mine := logged.active txnId txn active
    simp only [TxnLogged, phase] at mine
    refine logged.proceeds (.flushReturn txnId) rfl rfl rfl rfl (fun _ => .inl rfl) rfl ?_
      (.inl rfl) fun _ => .inl rfl
    exact ⟨mine.1.durable logged.flushed.durable durable, mine.2⟩
  | flushPage txnId key =>
    obtain ⟨txn, pending, pools, active, phase, member, rfl, touches, -, -⟩ :=
      step_flushPage stepped
    have mine := logged.active txnId txn active
    simp only [TxnLogged, phase] at mine
    refine logged.proceeds (.flushPage txnId key) rfl rfl rfl rfl touches.sizes rfl mine
      (.inl rfl) fun other => ?_
    by_cases same : other = key
    · subst same
      exact .inr ⟨mine.1, (mine.2 other).mpr (serial.dirtied_of_pending active phase member)⟩
    · exact .inl (touches.onDisk other same)
  | flushPageTorn txnId key written =>
    obtain ⟨txn, pending, pools, active, phase, member, rfl, touches, -, -⟩ :=
      step_flushPageTorn stepped
    have mine := logged.active txnId txn active
    refine logged.proceeds (.flushPageTorn txnId key written) rfl rfl rfl rfl touches.sizes
      (Function.update_eq_self_iff.mpr active.symm).symm mine (.inl rfl) fun other => ?_
    simp only [TxnLogged, phase] at mine
    by_cases same : other = key
    · subst same
      exact .inr ⟨mine.1, (mine.2 other).mpr (serial.dirtied_of_pending active phase member)⟩
    · exact .inl (touches.onDisk other same)
  | commitRelease txnId =>
    obtain ⟨txn, active, phase, rfl⟩ := step_commitRelease stepped
    have mine := logged.active txnId txn active
    simp only [TxnLogged, phase] at mine
    refine logged.quiet (.commitRelease txnId) rfl rfl rfl logged.ids (fun _ => .inl rfl)
      (fun _ different => Function.update_of_ne different _ _)
      (fun txn present => by simp [finish, Event.txnId] at present) (fun _ => .inl ?_) (.inl rfl)
      fun _ => .inl rfl
    rw [logEntries_none rfl, accessesOf_none rfl, released_commitRelease]
    refine ⟨by simp [Event.txnId], mine.1, fun key => ?_⟩
    exact (mine.2 key).trans (serial.dirtied txnId txn active key)
  | abort txnId =>
    obtain ⟨txn, active, running, rfl⟩ := step_abort stepped
    exact logged.proceeds (.abort txnId) rfl rfl rfl rfl (fun _ => .inl rfl) rfl
      (logged.unlogged_of_running active running) (.inl rfl) fun _ => .inl rfl
  | discardPage txnId key =>
    obtain ⟨txn, pending, pools, active, phase, member, rfl, touches, -, onDisk⟩ :=
      step_discardPage stepped
    have mine := logged.active txnId txn active
    simp only [TxnLogged, phase] at mine
    exact logged.proceeds (.discardPage txnId key) rfl rfl rfl rfl touches.sizes rfl mine
      (.inl rfl) fun other => .inl (touches.same_onDisk onDisk other)
  | appendAbort txnId =>
    obtain ⟨txn, log, lsn, active, phase, appended, rfl⟩ := step_appendAbort stepped
    have mine := logged.active txnId txn active
    simp only [TxnLogged, phase] at mine
    exact logged.notes serial (.appendAbort txnId) active rfl rfl (.inr rfl) appended mine
      (.inr rfl)
  | abortRelease txnId =>
    obtain ⟨txn, active, phase, rfl⟩ := step_abortRelease stepped
    have mine := logged.active txnId txn active
    simp only [TxnLogged, phase] at mine
    refine logged.quiet (.abortRelease txnId) rfl rfl rfl logged.ids (fun _ => .inl rfl)
      (fun _ different => Function.update_of_ne different _ _)
      (fun txn present => by simp [finish, Event.txnId] at present) (fun _ => .inr ?_) (.inl rfl)
      fun _ => .inl rfl
    rw [logEntries_none rfl, released_other (by simp)]
    refine ⟨fun done => ?_, mine⟩
    have inactive : s.activeTxns txnId = none := (serial.ended txnId done).2
    rw [active] at inactive
    cases inactive

theorem synced_le_before (logged : Logged old init events s)
    (after : Logged old init (events ++ [event]) s') (stepped : s.step event = some s') :
    s'.log.file.synced ≤ s.log.file.content.length := by
  by_cases silent : event.logEntry = none
  · have same := after.file.length
    rw [logEntries_none silent, ← logged.file.length] at same
    exact same ▸ after.flushed.synced_le
  · have before := logged.flushed.synced_le
    cases event with
    | appendBegin txnId =>
      obtain ⟨txn, log, lsn, -, -, appended, rfl⟩ := step_appendBegin stepped
      obtain ⟨-, -, rfl⟩ := LogManager.appendRecord_some appended
      exact before
    | appendUpdate txnId key image =>
      obtain ⟨txn, pending, pools, log, lsn, -, -, -, -, appended, rfl, -, -⟩ :=
        step_appendUpdate stepped
      obtain ⟨-, -, rfl⟩ := LogManager.appendRecord_some appended
      exact before
    | appendCommit txnId =>
      obtain ⟨txn, log, lsn, -, -, appended, rfl⟩ := step_appendCommit stepped
      obtain ⟨-, -, rfl⟩ := LogManager.appendRecord_some appended
      exact before
    | appendAbort txnId =>
      obtain ⟨txn, log, lsn, -, -, appended, rfl⟩ := step_appendAbort stepped
      obtain ⟨-, -, rfl⟩ := LogManager.appendRecord_some appended
      exact before
    | _ => exact absurd rfl silent

theorem reached {log : LogManager} {files : Nat → Option DiskManager}
    (opened : OpenedLog old log)
    (fits : ∀ objectId disk, files objectId = some disk →
      objectId < 2 ^ 32 ∧ disk.numPages < 2 ^ 32)
    (present : ∀ txnId key, Updated (old.map LogRecord.entry) txnId key → HasPage files key)
    (reached : run Engine.step (Engine.start log files) events = some s) :
    Logged old (Engine.start log files).onDisk events s :=
  run_induction (Logged old (Engine.start log files).onDisk)
    (start opened fits present)
    (fun _ _ _ _ before logged stepped => logged.step (Serial.reached before) stepped) reached

end Logged

end Engine

end FlintDB
