import FlintDB.Txn.CrashAtomicity

set_option autoImplicit false

-- One directory lives through many process runs. The log is kept from run to run, while every run hands out
-- transaction ids from 1 on.

namespace FlintDB

open Lib

structure Directory where
  wal : Bytes
  files : Nat → Option DiskManager

/-- Where a process run ends. -/
inductive Crash
  -- before LogManager has truncated a torn tail
  | scanning
  -- in RunRecovery, after so many page writes and so many bytes of the next one
  | recovering (pages bytes : Nat)
  -- after these steps, of which the last may be an append that reached the file only in part
  | running (events : List Event) (walBytes : Nat)

/-- What a process run did, and which of its records are left in the log. -/
structure Session where
  events : List Event
  survived : List (LogEntry Nat PageKey PageImage)

/-- The writes of the transactions whose Commit record is left, in that order. -/
def Session.committedWrites (session : Session) : List (PageKey × PageImage) :=
  (commits session.survived).flatMap fun txnId => writesOf (accessesOf txnId session.events)

def wholeLog (sessions : List Session) : List (LogEntry Nat PageKey PageImage) :=
  (sessions.map Session.survived).flatten

namespace Directory

-- The page write RunRecovery was at when it stopped after `bytes` bytes.
def tornWrite (files : Nat → Option DiskManager) (record : LogRecord) (bytes : Nat) : LogRecord :=
  { record with pageImage := .overwrite bytes record.pageImage (fileImage files record.key) }

def crash (dir : Directory) : Crash → Option Directory
  | .scanning => some dir
  | .recovering pages bytes => do
    let log := LogManager.open dir.wal
    let writes := recoveryWrites log.recordsOnOpen
    let files ← (writes.take pages).foldlM replay dir.files
    match writes[pages]? with
    | none => some ⟨log.file.content, files⟩
    | some record => do
      let files ← replay files (tornWrite files record bytes)
      some ⟨log.file.content, files⟩
  | .running events walBytes => do
    let log := LogManager.open dir.wal
    let files ← runRecovery log.recordsOnOpen dir.files
    let before ← run Engine.step (.start log files) events.dropLast
    let s ← run Engine.step (.start log files) events
    if before.log.file.content.length ≤ walBytes then
      some ⟨s.log.file.content.take walBytes, s.files⟩
    else none

def session (dir : Directory) : Crash → Option Session
  | .running events walBytes => some {
      events := events
      survived := surviving events (walBytes - (LogManager.open dir.wal).file.content.length) }
  | _ => none

def step (state : Directory × List Session) (crash : Crash) : Option (Directory × List Session) :=
  (state.1.crash crash).map fun next => (next, state.2 ++ (state.1.session crash).toList)

structure Kept (init : PageKey → PageImage) (dir : Directory) (sessions : List Session) : Prop where
  wal : ∃ records n, dir.wal = (encodeAll records).take n ∧ WalRecords records ∧
    (within LogRecord.size records n).map LogRecord.entry = wholeLog sessions
  fits : ∀ objectId disk, dir.files objectId = some disk →
    objectId < 2 ^ 32 ∧ disk.numPages < 2 ^ 32
  pages : ∀ txnId key, Updated (wholeLog sessions) txnId key → HasPage dir.files key
  disk : ∀ key, fileImage dir.files key = init key ∨
    ∃ txnId ∈ commits (wholeLog sessions), Updated (wholeLog sessions) txnId key
  redone : ∀ session ∈ sessions, ∀ store,
    redo store session.survived = applyWrites store session.committedWrites

namespace Kept

variable {init : PageKey → PageImage} {dir next : Directory} {sessions : List Session}

theorem opened (kept : Kept init dir sessions) :
    ∃ records, OpenedLog records (LogManager.open dir.wal) ∧
      records.map LogRecord.entry = wholeLog sessions := by
  obtain ⟨records, n, walEq, wal, entries⟩ := kept.wal
  exact ⟨_, by rw [walEq]; exact openedLog_cut _ wal n, entries⟩

theorem recovers (kept : Kept init dir sessions) :
    ∃ recovered, runRecovery (LogManager.open dir.wal).recordsOnOpen dir.files = some recovered ∧
      SameSizes dir.files recovered ∧
      fileImage recovered = redo init (wholeLog sessions) := by
  obtain ⟨records, opened, entries⟩ := kept.opened
  have present : ∀ record ∈ records, record.type = .kUpdate → HasPage dir.files record.key := by
    intro record member update
    refine kept.pages record.txnId record.key ⟨record.pageImage, entries ▸ ?_⟩
    exact List.mem_map.mpr ⟨record, member, by simp [LogRecord.entry, update, LogRecord.key]⟩
  obtain ⟨recovered, ran, same, image⟩ := runRecovery_spec records present
  refine ⟨recovered, by rw [opened.onOpen]; exact ran, same, ?_⟩
  rw [image, entries]
  exact redo_congr kept.disk

theorem rewritten (kept : Kept init dir sessions) {records : List LogRecord}
    (opened : OpenedLog records (LogManager.open dir.wal))
    (entries : records.map LogRecord.entry = wholeLog sessions)
    {files : Nat → Option DiskManager} (same : SameSizes dir.files files)
    (changed : ∀ key, fileImage files key = fileImage dir.files key ∨
      ∃ txnId ∈ commits (wholeLog sessions), Updated (wholeLog sessions) txnId key) :
    Kept init ⟨(LogManager.open dir.wal).file.content, files⟩ sessions where
  wal := by
    have all : within LogRecord.size records (encodeAll records).length = records :=
      within_all (encodeAll_length records).ge
    refine ⟨records, (encodeAll records).length, ?_, opened.wal, by rw [all, entries]⟩
    rw [List.take_length]
    exact opened.content
  fits := same.fits kept.fits
  pages txnId key updated := same.hasPage.mpr (kept.pages txnId key updated)
  disk key := by
    rcases changed key with unchanged | committed
    · rw [show fileImage files key = fileImage dir.files key from unchanged]
      exact kept.disk key
    · exact .inr committed
  redone := kept.redone

theorem mem_recoveryWrites {records : List LogRecord} {record : LogRecord}
    (member : record ∈ recoveryWrites records) :
    ∃ txnId ∈ commits (records.map LogRecord.entry),
      Updated (records.map LogRecord.entry) txnId record.key := by
  have write : (record.key, record.pageImage) ∈
      (recoveryWrites records).map fun record => (record.key, record.pageImage) :=
    List.mem_map.mpr ⟨record, member, rfl⟩
  rw [recoveryWrites_entry, mem_updatesBy] at write
  obtain ⟨txnId, committed, updated⟩ := write
  exact ⟨txnId, by simpa using committed, record.pageImage, updated⟩

theorem recovering {pages bytes : Nat} (kept : Kept init dir sessions)
    (crashed : dir.crash (.recovering pages bytes) = some next) : Kept init next sessions := by
  obtain ⟨records, opened, entries⟩ := kept.opened
  have redoes : ∀ record ∈ recoveryWrites records,
      ∃ txnId ∈ commits (wholeLog sessions), Updated (wholeLog sessions) txnId record.key := by
    intro record member
    rw [← entries]
    exact mem_recoveryWrites member
  have present : ∀ record ∈ recoveryWrites records, HasPage dir.files record.key := by
    intro record member
    obtain ⟨txnId, -, updated⟩ := redoes record member
    exact kept.pages txnId record.key updated
  obtain ⟨files, replayed, same, image⟩ :=
    foldlM_replay ((recoveryWrites records).take pages) fun record member =>
      present record (List.mem_of_mem_take member)
  have changed : ∀ key, fileImage files key = fileImage dir.files key ∨
      ∃ txnId ∈ commits (wholeLog sessions), Updated (wholeLog sessions) txnId key := by
    intro key
    rw [image]
    by_cases written : key ∈ (((recoveryWrites records).take pages).map
        fun record => (record.key, record.pageImage)).map Prod.fst
    · simp only [List.map_map, List.mem_map, Function.comp_apply] at written
      obtain ⟨record, member, rfl⟩ := written
      exact .inr (redoes record (List.mem_of_mem_take member))
    · exact .inl (applyWrites_unwritten _ _ _ written)
  simp only [crash, opened.onOpen, replayed, Option.bind_eq_bind, Option.bind_some] at crashed
  cases found : (recoveryWrites records)[pages]? with
  | none =>
    simp only [found, Option.some.injEq] at crashed
    subst crashed
    exact kept.rewritten opened entries same changed
  | some record =>
    have member := List.mem_of_getElem? found
    obtain ⟨torn, replayedTorn, sameTorn, imageTorn⟩ :=
      replay_spec (tornWrite files record bytes)
        (same.hasPage.mpr (present record member))
    simp only [found, replayedTorn, Option.bind_some, Option.some.injEq] at crashed
    subst crashed
    refine kept.rewritten opened entries
      (fun objectId => (sameTorn objectId).trans (same objectId)) fun key => ?_
    rw [imageTorn]
    by_cases here : key = record.key
    · exact .inr (here ▸ redoes record member)
    · rw [show (tornWrite files record bytes).key = record.key from rfl,
        Function.update_of_ne here]
      exact changed key

theorem wholeLog_snoc (sessions : List Session) (session : Session) :
    wholeLog (sessions ++ [session]) = wholeLog sessions ++ session.survived := by
  simp [wholeLog]

theorem ran {events : List Event} {walBytes : Nat} (kept : Kept init dir sessions)
    (crashed : dir.crash (.running events walBytes) = some next) :
    Kept init next (sessions ++ (dir.session (.running events walBytes)).toList) := by
  obtain ⟨records, opened, entries⟩ := kept.opened
  obtain ⟨recovered, ran, same, image⟩ := kept.recovers
  simp only [crash, ran, Option.bind_eq_bind, Option.bind_some, Option.bind_eq_some_iff,
    Option.ite_none_right_eq_some, Option.some.injEq] at crashed
  obtain ⟨before, reachedBefore, s, reached, written, rfl⟩ := crashed
  have present : ∀ txnId key, Updated (records.map LogRecord.entry) txnId key →
      HasPage recovered key := by
    intro txnId key updated
    rw [entries] at updated
    exact same.hasPage.mpr (kept.pages txnId key updated)
  have fits := same.fits kept.fits
  have loggedBefore := Engine.Logged.reached opened fits present reachedBefore
  have logged := Engine.Logged.reached opened fits present reached
  have serial := Engine.Serial.reached reached
  rw [Engine.onDisk_start, image] at logged serial loggedBefore
  have oldKept : goodLength records ≤ walBytes := by
    have length := loggedBefore.file.length
    omega
  have synced : s.log.file.synced ≤ walBytes := by
    refine Nat.le_trans ?_ written
    cases events using List.reverseRecOn with
    | nil =>
      have same : before = s := by
        simpa using reachedBefore.symm.trans reached
      exact same ▸ logged.flushed.synced_le
    | append_singleton events event =>
      rw [List.dropLast_concat] at reachedBefore loggedBefore
      obtain ⟨middle, reachedMiddle, stepped⟩ := run_snoc.mp reached
      rw [reachedBefore] at reachedMiddle
      cases reachedMiddle
      exact loggedBefore.synced_le_before logged stepped
  have length : (LogManager.open dir.wal).file.content.length = goodLength records := by
    rw [opened.content, encodeAll_length]
  have whole : wholeLog (sessions ++ (dir.session (.running events walBytes)).toList) =
      wholeLog sessions ++ surviving events (walBytes - goodLength records) := by
    simp only [session, Option.toList_some, wholeLog_snoc, length]
  obtain ⟨new, content, wal, newEntries⟩ := logged.file.stored
  refine {
    wal := ⟨records ++ new, walBytes, by rw [content], wal, ?_⟩
    fits := fun objectId disk found => ?_
    pages := fun txnId key updated => ?_
    disk := fun key => ?_
    redone := fun session member store => ?_ }
  · rw [within_append oldKept, List.map_append, entries, whole, surviving, ← newEntries]
    congr 1
    exact within_map LogRecord.entry entrySize_entry new _
  · refine logged.fits objectId disk.numPages ?_
    rw [← Engine.numPages_files]
    exact Option.map_eq_some_iff.mpr ⟨disk, found, rfl⟩
  · rw [whole, ← entries] at updated
    obtain ⟨image, member⟩ := updated
    have everywhere : Updated (records.map LogRecord.entry ++ logEntries events) txnId key := by
      rcases List.mem_append.mp member with old | mine
      · exact ⟨image, List.mem_append_left _ old⟩
      · exact ⟨image, List.mem_append_right _
          ((Engine.Logged.surviving_isPrefix _ _).subset mine)⟩
    exact logged.hasPage_of_updated everywhere
  · rw [whole, Engine.fileImage_files]
    rcases logged.disk_survives (n := walBytes)
      (fun txnId durable => durable.grow List.prefix_rfl synced) key with same | new
    · rw [same, redo]
      by_cases updated : key ∈ (updatesBy (fun txnId => txnId ∈ commits (wholeLog sessions))
          (wholeLog sessions)).map Prod.fst
      · obtain ⟨txnId, image, committed, member⟩ := mem_keys_updatesBy.mp updated
        refine .inr ⟨txnId, ?_, image, List.mem_append_left _ member⟩
        rw [commits_append]
        exact List.mem_append_left _ (by simpa using committed)
      · exact .inl (applyWrites_unwritten _ _ _ updated)
    · obtain ⟨txnId, committed, image, member⟩ := new
      refine .inr ⟨txnId, ?_, image, List.mem_append_right _ member⟩
      rw [commits_append]
      exact List.mem_append_right _ committed
  · rcases List.mem_append.mp member with old | mine
    · exact kept.redone session old store
    · simp only [Directory.session, Option.toList_some, List.mem_singleton] at mine
      subst mine
      rw [length]
      exact logged.redo_surviving serial _ store

theorem fresh (data : DataFiles) : Kept (fileImage data.file) ⟨[], data.file⟩ [] where
  wal := ⟨[], 0, rfl, ⟨by simp, by simp, Nat.zero_le _⟩, rfl⟩
  fits := data.fits
  pages _ _ updated := by
    obtain ⟨image, member⟩ := updated
    cases member
  disk _ := .inl rfl
  redone := by simp

theorem lived {data : DataFiles} {crashes : List Crash} {state : Directory × List Session}
    (lived : run step (⟨[], data.file⟩, []) crashes = some state) :
    Kept (fileImage data.file) state.1 state.2 := by
  refine run_induction (fun _ state => Kept (fileImage data.file) state.1 state.2) (fresh data)
    (fun _ state crash next _ kept stepped => ?_) lived
  simp only [step, Option.map_eq_some_iff] at stepped
  obtain ⟨dir, crashed, rfl⟩ := stepped
  cases crash with
  | scanning =>
    cases crashed
    simpa [session] using kept
  | recovering pages bytes => simpa [session] using kept.recovering crashed
  | running events walBytes => exact kept.ran crashed

end Kept

/-- Whenever a run has left Update records of an id and some run a Commit record of it, the first
run has left a Commit record of it too. -/
def OwnCommits (sessions : List Session) : Prop :=
  ∀ session ∈ sessions, ∀ other ∈ sessions, ∀ txnId ∈ updaters session.survived,
    txnId ∈ commits other.survived → txnId ∈ commits session.survived

instance (sessions : List Session) : Decidable (OwnCommits sessions) :=
  inferInstanceAs (Decidable (∀ session ∈ sessions, ∀ other ∈ sessions,
    ∀ txnId ∈ updaters session.survived,
      txnId ∈ commits other.survived → txnId ∈ commits session.survived))

/-- After any number of runs and crashes the next open shows, on every page, the transactions of
all runs whose Commit record is complete, in that order, if no run left updates without a Commit
record under an id that another run committed. -/
theorem durable_across_restarts (data : DataFiles) (crashes : List Crash) (dir : Directory)
    (sessions : List Session)
    (lived : run step (⟨[], data.file⟩, []) crashes = some (dir, sessions))
    (own : OwnCommits sessions) :
    ∃ recovered, runRecovery (LogManager.open dir.wal).recordsOnOpen dir.files = some recovered ∧
      ∀ key, (Engine.start (LogManager.open dir.wal) recovered).content key =
        applyWrites (fileImage data.file) (sessions.flatMap Session.committedWrites) key := by
  have kept := Kept.lived lived
  obtain ⟨recovered, ran, -, image⟩ := kept.recovers
  refine ⟨recovered, ran, fun key => ?_⟩
  rw [Engine.start_content, Engine.onDisk_start, image]
  have separate : redo (fileImage data.file) (wholeLog sessions) =
      (sessions.map Session.survived).foldl redo (fileImage data.file) := by
    refine redo_flatten _ fun log member txnId key image updated committed => ?_
    obtain ⟨session, isSession, rfl⟩ := List.mem_map.mp member
    rw [mem_commits, List.mem_flatten] at committed
    obtain ⟨log, isLog, commit⟩ := committed
    obtain ⟨other, isOther, rfl⟩ := List.mem_map.mp isLog
    exact own session isSession other isOther txnId (mem_updaters.mpr ⟨key, image, updated⟩)
      (mem_commits.mpr commit)
  have inOrder : ∀ part : List Session, (∀ session ∈ part, session ∈ sessions) → ∀ store,
      (part.map Session.survived).foldl redo store =
        applyWrites store (part.flatMap Session.committedWrites) := by
    intro part
    induction part with
    | nil => intro _ _; rfl
    | cons session rest ih =>
      intro members store
      simp only [List.map_cons, List.foldl_cons, List.flatMap_cons, applyWrites_append]
      rw [kept.redone session (members session List.mem_cons_self),
        ih fun other member => members other (List.mem_cons_of_mem _ member)]
  rw [separate, inOrder sessions fun _ => id]

def oneZeroPage : DataFiles where
  file objectId := if objectId = 0 then some ⟨[.zero]⟩ else none
  fits := by
    intro objectId disk found
    split at found
    · rename_i first
      cases found
      simp [first, DiskManager.numPages]
    · cases found

def committedCrashes : List Crash :=
  [.running [.begin 1, .appendBegin 1, .lock 1 ⟨0, 0⟩ .kExclusive, .write 1 ⟨0, 0⟩ (.ofBytes [1]),
      .commit 1, .appendUpdate 1 ⟨0, 0⟩ (.ofBytes [1]), .appendCommit 1] 4195,
    .recovering 0 100, .running [.begin 1, .appendBegin 1, .commit 1, .appendCommit 1] 4261]

set_option maxRecDepth 100000 in
theorem durable_across_restarts_committed :
    ∃ dir sessions, run step (⟨[], oneZeroPage.file⟩, []) committedCrashes = some (dir, sessions) ∧
      OwnCommits sessions ∧
      ∃ recovered, runRecovery (LogManager.open dir.wal).recordsOnOpen dir.files = some recovered ∧
        ∀ key, (Engine.start (LogManager.open dir.wal) recovered).content key =
          applyWrites (fileImage oneZeroPage.file)
            (sessions.flatMap Session.committedWrites) key := by
  have ran : ((run step (⟨[], oneZeroPage.file⟩, []) committedCrashes).map fun state =>
      decide (OwnCommits state.2)) = some true := by
    decide +kernel
  obtain ⟨⟨dir, sessions⟩, lived, own⟩ := Option.map_eq_some_iff.mp ran
  exact ⟨dir, sessions, lived, of_decide_eq_true own,
    durable_across_restarts oneZeroPage committedCrashes dir sessions lived
      (of_decide_eq_true own)⟩

/-- Run 1 stops between AppendUpdate and AppendCommit; run 2 commits its own transaction 1. -/
def reusedIdCrashes : List Crash :=
  [.running [.begin 1, .appendBegin 1, .lock 1 ⟨0, 0⟩ .kExclusive, .write 1 ⟨0, 0⟩ (.ofBytes [1]),
      .commit 1, .appendUpdate 1 ⟨0, 0⟩ (.ofBytes [1])] 4162,
    .running [.begin 1, .appendBegin 1, .commit 1, .appendCommit 1] 4228]

set_option maxRecDepth 100000 in
theorem reused_id_resurrects_update :
    ∃ dir sessions recovered,
      run step (⟨[], oneZeroPage.file⟩, []) reusedIdCrashes = some (dir, sessions) ∧
      runRecovery (LogManager.open dir.wal).recordsOnOpen dir.files = some recovered ∧
      (Engine.start (LogManager.open dir.wal) recovered).content ⟨0, 0⟩ ≠
        applyWrites (fileImage oneZeroPage.file) (sessions.flatMap Session.committedWrites)
          ⟨0, 0⟩ := by
  have ran : ((run step (⟨[], oneZeroPage.file⟩, []) reusedIdCrashes).bind fun state =>
      (runRecovery (LogManager.open state.1.wal).recordsOnOpen state.1.files).map fun recovered =>
        decide ((Engine.start (LogManager.open state.1.wal) recovered).content ⟨0, 0⟩ =
          applyWrites (fileImage oneZeroPage.file) (state.2.flatMap Session.committedWrites)
            ⟨0, 0⟩)) = some false := by
    decide +kernel
  obtain ⟨⟨dir, sessions⟩, lived, after⟩ := Option.bind_eq_some_iff.mp ran
  obtain ⟨recovered, replayed, differs⟩ := Option.map_eq_some_iff.mp after
  exact ⟨dir, sessions, recovered, lived, replayed, of_decide_eq_false differs⟩

end Directory

end FlintDB
