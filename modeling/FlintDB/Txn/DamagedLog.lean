import FlintDB.Txn.ForcedLog
import FlintDB.Wal.DamagedRecord

set_option autoImplicit false

-- The scan stops at the damaged record, and recovery writes the images in front of it over data files that have the
-- later transactions already. Pages those transactions share with the earlier ones go back, their other pages stay.

namespace FlintDB

open Lib

namespace Engine

variable {data : DataFiles} {events : List Event} {s : Engine} {i : Nat} {old new : UInt8}

theorem Redone.reached (reached : run Engine.step (Engine.start (LogManager.open []) data.file) events = some s) :
    Redone (fileImage data.file) events := by
  have emptyLog : OpenedLog [] (LogManager.open []) := openedLog_cut [] ⟨by simp, by simp, Nat.zero_le _⟩ 0
  refine run_induction (fun events _ => Redone (fileImage data.file) events) (redone_nil _) ?_ reached
  intro events s event s' before redone stepped
  have after := run_snoc.mpr ⟨s, before, stepped⟩
  have logged := Logged.reached emptyLog data.fits (by simp [Updated]) before
  have logged' := Logged.reached emptyLog data.fits (by simp [Updated]) after
  have serial := Serial.reached before
  have serial' := Serial.reached after
  rw [onDisk_start] at logged logged' serial serial'
  exact redone.step logged.forced serial logged'.forced serial' stepped

-- The first `j` committed transactions, in the order of their Commit records.
def stateAfter (data : DataFiles) (events : List Event) (j : Nat) : PageKey → PageImage :=
  applyWrites (fileImage data.file)
    (((commits (logEntries events)).take j).flatMap fun txnId => writesOf (accessesOf txnId events))

/-- A run in which every Commit that was begun has returned, and a byte of its log that is changed afterwards. -/
structure Damaged (data : DataFiles) (events : List Event) (s : Engine) (i : Nat) (old new : UInt8) : Prop where
  reached : run step (start (LogManager.open []) data.file) events = some s
  settled : ∀ txnId ∈ commits (logEntries events), txnId ∈ released events
  found : s.log.file.content[i]? = some old
  changed : new ≠ old

def LeavesPrefix (data : DataFiles) (events : List Event) (s : Engine) (i : Nat) (new : UInt8) : Prop :=
  ∃ recovered, runRecovery (LogManager.open (s.log.file.content.set i new)).recordsOnOpen s.files = some recovered ∧
    ∃ j, ∀ key, fileImage recovered key = stateAfter data events j key

-- The page is written by a transaction whose Commit record stands in front of the changed byte.
def WrittenBefore (events : List Event) (i : Nat) (key : PageKey) : Prop :=
  ∃ txnId ∈ commits (surviving events i), key ∈ (writesOf (accessesOf txnId events)).map Prod.fst

/-- At some point of the commit order the pages of the transactions in front of the changed byte are as these left them,
and all others are as they are at the end. -/
def Untangled (data : DataFiles) (events : List Event) (i : Nat) : Prop :=
  ∃ j, ∀ key,
    (WrittenBefore events i key →
      stateAfter data events j key = stateAfter data events (commits (surviving events i)).length key) ∧
    (¬ WrittenBefore events i key →
      stateAfter data events j key = stateAfter data events (commits (logEntries events)).length key)

theorem commits_surviving (events : List Event) (i : Nat) :
    commits (surviving events i) = (commits (logEntries events)).take (commits (surviving events i)).length := by
  obtain ⟨rest, split⟩ := Logged.surviving_isPrefix events i
  rw [← split, commits_append, List.take_left]

theorem onDisk_settled (damaged : Damaged data events s i old new) :
    s.onDisk = stateAfter data events (commits (logEntries events)).length := by
  have emptyLog : OpenedLog [] (LogManager.open []) := openedLog_cut [] ⟨by simp, by simp, Nat.zero_le _⟩ 0
  have serial := Serial.reached damaged.reached
  have logged := Logged.reached emptyLog data.fits (by simp [Updated]) damaged.reached
  rw [onDisk_start] at serial logged
  have redone := Redone.reached damaged.reached
  have none_releasing : ∀ txnId, ¬ Releasing events txnId := fun txnId releasing =>
    releasing.2 (damaged.settled txnId releasing.1)
  have committed : stateAfter data events (commits (logEntries events)).length =
      committedStore (fileImage data.file) events := by
    rw [stateAfter, List.take_length, ← logged.forced.redo_whole serial]
    exact funext fun key => redone.settled key fun txnId releasing => absurd releasing (none_releasing txnId)
  funext key
  rw [committed]
  by_cases dirtied : ∃ txnId txn, s.activeTxns txnId = some txn ∧ key ∈ txn.dirtiedPages
  · obtain ⟨txnId, txn, active, member⟩ := dirtied
    have state := serial.dirty txnId txn active key member
    have mine := logged.active txnId txn active
    unfold PageState at state
    unfold TxnLogged at mine
    cases phase : txn.phase with
    | flushing pending =>
      simp only [phase] at mine
      have gone := (serial.ended txnId (damaged.settled txnId mine.1.committed)).2
      cases gone.symm.trans active
    | beginning | running | logging | forcing =>
      simp only [phase] at state
      exact state.2.1
    | discarding | discarded =>
      simp only [phase] at state
      exact state.1
  · exact (serial.clean key fun txnId txn active member => dirtied ⟨txnId, txn, active, member⟩).2

theorem recovers_damaged (damaged : Damaged data events s i old new) :
    ∃ recovered, runRecovery (LogManager.open (s.log.file.content.set i new)).recordsOnOpen s.files = some recovered ∧
      ∀ key,
        (WrittenBefore events i key →
          fileImage recovered key = stateAfter data events (commits (surviving events i)).length key) ∧
        (¬ WrittenBefore events i key →
          fileImage recovered key = stateAfter data events (commits (logEntries events)).length key) := by
  have emptyLog : OpenedLog [] (LogManager.open []) := openedLog_cut [] ⟨by simp, by simp, Nat.zero_le _⟩ 0
  have serial := Serial.reached damaged.reached
  have logged := Logged.reached emptyLog data.fits (by simp [Updated]) damaged.reached
  obtain ⟨records, content, wal, entries⟩ := logged.file.stored
  simp only [List.nil_append] at content wal
  have found := damaged.found
  rw [content] at found
  have onOpen : (LogManager.open (s.log.file.content.set i new)).recordsOnOpen = within LogRecord.size records i := by
    rw [content]
    exact scanRecords_damaged wal.canonical found damaged.changed
  have survived : (within LogRecord.size records i).map LogRecord.entry = surviving events i := by
    rw [within_map LogRecord.entry entrySize_entry, entries, surviving]
  have present : ∀ record ∈ within LogRecord.size records i, record.type = .kUpdate → HasPage s.files record.key := by
    intro record member update
    suffices logs : .update record.txnId record.key record.pageImage ∈ logEntries events from
      logged.hasPage_of_updated ⟨_, List.mem_append_right _ logs⟩
    refine (Logged.surviving_isPrefix events i).subset (survived ▸ ?_)
    exact List.mem_map.mpr ⟨record, member, by simp [LogRecord.entry, update, LogRecord.key]⟩
  obtain ⟨recovered, ran, -, image⟩ := runRecovery_spec _ present
  have value : fileImage recovered = applyWrites (stateAfter data events (commits (logEntries events)).length)
      ((commits (surviving events i)).flatMap fun txnId => writesOf (accessesOf txnId events)) := by
    rw [image, survived, logged.redo_surviving serial, fileImage_files, onDisk_settled damaged]
  refine ⟨recovered, by rw [onOpen]; exact ran, fun key => ?_⟩
  have written : key ∈ ((commits (surviving events i)).flatMap fun txnId =>
      writesOf (accessesOf txnId events)).map Prod.fst ↔ WrittenBefore events i key := by
    simp only [List.map_flatMap, List.mem_flatMap, WrittenBefore]
  rw [value]
  refine ⟨fun before => ?_, fun other => applyWrites_unwritten _ _ _ (mt written.mp other)⟩
  have early : stateAfter data events (commits (surviving events i)).length = applyWrites (fileImage data.file)
      ((commits (surviving events i)).flatMap fun txnId => writesOf (accessesOf txnId events)) := by
    rw [stateAfter, ← commits_surviving]
  rw [early]
  exact applyWrites_congr _ _ _ _ (.inl (written.mpr before))

theorem stateAfter_add (data : DataFiles) (events : List Event) (j more : Nat) :
    stateAfter data events (j + more) = applyWrites (stateAfter data events j)
      ((((commits (logEntries events)).drop j).take more).flatMap fun txnId => writesOf (accessesOf txnId events)) := by
  rw [stateAfter, List.take_add, List.flatMap_append, applyWrites_append]
  rfl

theorem untangled_of_pages (more : Nat)
    (off : ∀ txnId ∈ ((commits (logEntries events)).drop (commits (surviving events i)).length).take more,
      ∀ key ∈ (writesOf (accessesOf txnId events)).map Prod.fst, ¬ WrittenBefore events i key)
    (on : ∀ txnId ∈ (commits (logEntries events)).drop ((commits (surviving events i)).length + more),
      ∀ key ∈ (writesOf (accessesOf txnId events)).map Prod.fst, WrittenBefore events i key) :
    Untangled data events i := by
  refine ⟨(commits (surviving events i)).length + more, fun key => ⟨fun before => ?_, fun other => ?_⟩⟩
  · rw [stateAfter_add, applyWrites_unwritten]
    simp only [List.map_flatMap, List.mem_flatMap, not_exists, not_and]
    exact fun txnId member written => off txnId member key written before
  · by_cases all : (commits (logEntries events)).length ≤ (commits (surviving events i)).length + more
    · rw [stateAfter, stateAfter, List.take_of_length_le all, List.take_length]
    · obtain ⟨rest, total⟩ := Nat.exists_eq_add_of_le (Nat.le_of_not_le all)
      rw [total, stateAfter_add _ _ _ rest, applyWrites_unwritten]
      simp only [List.map_flatMap, List.mem_flatMap, not_exists, not_and]
      exact fun txnId member written => other (on txnId (List.mem_of_mem_take member) key written)

theorem damaged_log_recovers_prefix_state (data : DataFiles) (events : List Event) (s : Engine) (i : Nat) (old new : UInt8)
    (damaged : Damaged data events s i old new) :
    LeavesPrefix data events s i new ↔ Untangled data events i := by
  obtain ⟨recovered, ran, value⟩ := recovers_damaged damaged
  constructor
  · rintro ⟨recovered', ran', j, state⟩
    cases ran.symm.trans ran'
    refine ⟨j, fun key => ⟨fun before => ?_, fun other => ?_⟩⟩
    · rw [← state key, (value key).1 before]
    · rw [← state key, (value key).2 other]
  · rintro ⟨j, same⟩
    refine ⟨recovered, ran, j, fun key => ?_⟩
    by_cases before : WrittenBefore events i key
    · rw [(value key).1 before, (same key).1 before]
    · rw [(value key).2 before, (same key).2 before]

def twoZeroPages : DataFiles where
  file objectId := if objectId = 0 then some ⟨[.zero, .zero]⟩ else none
  fits := by
    intro objectId disk found
    split at found
    · rename_i first
      cases found
      simp [first, DiskManager.numPages]
    · cases found

def committedEvents (txnId bytes : Nat) (pages : List (Nat × PageImage)) : List Event :=
  [Event.begin txnId, .appendBegin txnId] ++
    pages.flatMap (fun page => [Event.lock txnId ⟨0, page.1⟩ .kExclusive, .write txnId ⟨0, page.1⟩ page.2]) ++
    [Event.commit txnId] ++ pages.map (fun page => Event.appendUpdate txnId ⟨0, page.1⟩ page.2) ++
    [Event.appendCommit txnId, .flushBegin txnId, .fsync txnId bytes, .flushEnd txnId, .flushReturn txnId] ++
    pages.map (fun page => Event.flushPage txnId ⟨0, page.1⟩) ++ [Event.commitRelease txnId]

def apartEvents : List Event := committedEvents 1 4195 [(0, .ofBytes [1])] ++ committedEvents 2 8390 [(1, .ofBytes [2])]

def tangledEvents : List Event :=
  committedEvents 1 4195 [(0, .ofBytes [1])] ++ committedEvents 2 12519 [(0, .ofBytes [2]), (1, .ofBytes [2])]

theorem damaged_of_reached (reached : run step (start (LogManager.open []) data.file) events = some s)
    (settled : ∀ txnId ∈ commits (logEntries events), txnId ∈ released events) (inLog : i < logSize (logEntries events)) :
    ∃ old, Damaged data events s i old (old + 1) := by
  have emptyLog : OpenedLog [] (LogManager.open []) := openedLog_cut [] ⟨by simp, by simp, Nat.zero_le _⟩ 0
  have length := (Logged.reached emptyLog data.fits (by simp [Updated]) reached).file.length
  simp only [goodLength, List.map_nil, List.sum_nil, Nat.zero_add] at length
  obtain ⟨old, found⟩ : ∃ old, s.log.file.content[i]? = some old :=
    ⟨_, List.getElem?_eq_getElem (by omega)⟩
  refine ⟨old, reached, settled, found, fun same => ?_⟩
  have number := congrArg UInt8.toNat same
  rw [UInt8.toNat_add] at number
  have small := old.toNat_lt
  simp only [UInt8.reduceToNat] at number
  omega

set_option maxRecDepth 100000 in
-- the byte is in the Commit record of transaction 2
theorem damaged_log_recovers_prefix_state_apart : ∃ s old, Damaged twoZeroPages apartEvents s 8360 old (old + 1) ∧
    LeavesPrefix twoZeroPages apartEvents s 8360 (old + 1) := by
  obtain ⟨s, reached⟩ := Option.isSome_iff_exists.mp (by decide +kernel :
    (run step (start (LogManager.open []) twoZeroPages.file) apartEvents).isSome = true)
  have before : commits (surviving apartEvents 8360) = [1] := by decide +kernel
  have all : commits (logEntries apartEvents) = [1, 2] := by decide +kernel
  have keys1 : (writesOf (accessesOf 1 apartEvents)).map Prod.fst = [⟨0, 0⟩] := by decide +kernel
  have keys2 : (writesOf (accessesOf 2 apartEvents)).map Prod.fst = [⟨0, 1⟩] := by decide +kernel
  obtain ⟨old, damaged⟩ := damaged_of_reached (i := 8360) reached (by decide +kernel) (by decide +kernel)
  refine ⟨s, old, damaged, (damaged_log_recovers_prefix_state _ _ _ _ _ _ damaged).mpr (untangled_of_pages 1 ?_ ?_)⟩
  · simp [WrittenBefore, before, all, keys1, keys2, -List.mem_map]
  · simp [before, all]

set_option maxRecDepth 100000 in
/-- Page 0 goes back to what transaction 1 wrote, page 1 keeps what transaction 2 wrote. -/
theorem damaged_log_yields_mixture : ¬ ∀ data events s i old new,
    Damaged data events s i old new → LeavesPrefix data events s i new := by
  intro always
  obtain ⟨s, reached⟩ := Option.isSome_iff_exists.mp (by decide +kernel :
    (run step (start (LogManager.open []) twoZeroPages.file) tangledEvents).isSome = true)
  obtain ⟨old, damaged⟩ := damaged_of_reached (i := 12500) reached (by decide +kernel) (by decide +kernel)
  obtain ⟨recovered, ran, value⟩ := recovers_damaged damaged
  obtain ⟨recovered', ran', j, state⟩ := always _ _ _ _ _ _ damaged
  cases ran.symm.trans ran'
  have before : commits (surviving tangledEvents 12500) = [1] := by decide +kernel
  have all : commits (logEntries tangledEvents) = [1, 2] := by decide +kernel
  have keys1 : (writesOf (accessesOf 1 tangledEvents)).map Prod.fst = [⟨0, 0⟩] := by decide +kernel
  have first := (value ⟨0, 0⟩).1 ⟨1, by simp [before], by simp [keys1, -List.mem_map]⟩
  have second := (value ⟨0, 1⟩).2 (by simp [WrittenBefore, before, keys1, -List.mem_map])
  rw [state, before] at first
  rw [state, all] at second
  match j with
  | 0 =>
    have differs : stateAfter twoZeroPages tangledEvents 0 ⟨0, 0⟩ ≠ stateAfter twoZeroPages tangledEvents 1 ⟨0, 0⟩ := by
      decide +kernel
    exact differs first
  | 1 =>
    have differs : stateAfter twoZeroPages tangledEvents 1 ⟨0, 1⟩ ≠ stateAfter twoZeroPages tangledEvents 2 ⟨0, 1⟩ := by
      decide +kernel
    exact differs second
  | j + 2 =>
    have last : stateAfter twoZeroPages tangledEvents (j + 2) = stateAfter twoZeroPages tangledEvents 2 := by
      simp [stateAfter, all]
    have differs : stateAfter twoZeroPages tangledEvents 2 ⟨0, 0⟩ ≠ stateAfter twoZeroPages tangledEvents 1 ⟨0, 0⟩ := by
      decide +kernel
    rw [last] at first
    exact differs first

end Engine

end FlintDB
