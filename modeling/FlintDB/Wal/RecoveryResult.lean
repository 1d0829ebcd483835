import FlintDB.Wal.Recovery

set_option autoImplicit false

-- RunRecovery as it runs, record by record and with its return value, and what becomes of the data files when it is
-- stopped between two page writes and started again.

namespace FlintDB

open Lib

-- The transactions with a Commit record.
def committedTxns (records : List LogRecord) : List Nat :=
  (records.filter fun record => record.type = .kCommit).map LogRecord.txnId

-- One turn of the replay loop; the number is `replayed`.
def replayTurn (committed : List Nat) (state : (Nat → Option DiskManager) × Nat) (record : LogRecord) :
    Option ((Nat → Option DiskManager) × Nat) :=
  if record.type ≠ .kUpdate then some state
  else if record.txnId ∉ committed then some state
  else (replay state.1 record).map fun files => (files, state.2 + 1)

/-- RunRecovery with its return value. -/
def runRecoveryCounted (records : List LogRecord) (files : Nat → Option DiskManager) :
    Option ((Nat → Option DiskManager) × Nat) :=
  records.foldlM (replayTurn (committedTxns records)) (files, 0)

theorem foldlM_replayTurn (committed : List Nat) (records : List LogRecord) (files : Nat → Option DiskManager)
    (replayed : Nat) :
    records.foldlM (replayTurn committed) (files, replayed) =
      ((records.filter fun record => record.type = .kUpdate ∧ record.txnId ∈ committed).foldlM replay files).map
        fun files' => (files', replayed +
          (records.filter fun record => record.type = .kUpdate ∧ record.txnId ∈ committed).length) := by
  induction records generalizing files replayed with
  | nil => rfl
  | cons record rest ih =>
    by_cases update : record.type = .kUpdate
    · by_cases isCommitted : record.txnId ∈ committed
      · simp only [List.foldlM_cons, replayTurn, update, isCommitted, ne_eq, not_true_eq_false, if_false, and_self,
          decide_true, List.filter_cons_of_pos]
        cases written : replay files record with
        | none => rfl
        | some next =>
          simp only [Option.map_some, Option.bind_eq_bind, Option.bind_some, ih next (replayed + 1), List.length_cons]
          congr 1
          funext files'
          rw [Nat.add_assoc, Nat.add_comm 1]
      · simp only [List.foldlM_cons, replayTurn, update, isCommitted, ne_eq, not_true_eq_false, not_false_eq_true,
          if_false, if_true, and_false, decide_false, Bool.false_eq_true, List.filter_cons_of_neg, Option.bind_eq_bind,
          Option.bind_some]
        exact ih files replayed
    · simp only [List.foldlM_cons, replayTurn, update, ne_eq, not_false_eq_true, if_true, false_and, decide_false,
        Bool.false_eq_true, List.filter_cons_of_neg, Option.bind_eq_bind, Option.bind_some]
      exact ih files replayed

theorem runRecoveryCounted_eq (records : List LogRecord) (files : Nat → Option DiskManager) :
    runRecoveryCounted records files =
      (runRecovery records files).map fun files' => (files', (recoveryWrites records).length) := by
  rw [runRecoveryCounted, foldlM_replayTurn, Nat.zero_add]
  rfl

-- RunRecovery stopped after some of its page writes.
def stoppedRecovery (records : List LogRecord) (files : Nat → Option DiskManager) (writes : Nat) :
    Option (Nat → Option DiskManager) :=
  ((recoveryWrites records).take writes).foldlM replay files

/-- Several recoveries, each stopped and followed by the next. -/
def stoppedRecoveries (records : List LogRecord) (files : Nat → Option DiskManager) (stops : List Nat) :
    Option (Nat → Option DiskManager) :=
  stops.foldlM (stoppedRecovery records) files

theorem files_ext {files files' : Nat → Option DiskManager} (sizes : SameSizes files files')
    (images : ∀ key, fileImage files' key = fileImage files key) : files' = files := by
  funext objectId
  have size := sizes objectId
  cases found : files objectId with
  | none => simpa [found] using size
  | some disk =>
    rw [found, Option.map_some, Option.map_eq_some_iff] at size
    obtain ⟨disk', found', numPages_eq⟩ := size
    rw [found', Option.some.injEq]
    have pages_eq : disk'.pages = disk.pages := by
      refine List.ext_getElem numPages_eq fun pageId within' within => ?_
      have image := images ⟨objectId, pageId⟩
      simpa [fileImage, found, found', DiskManager.image, DiskManager.readPage, within, within'] using image
    cases disk
    cases disk'
    cases pages_eq
    rfl

theorem stoppedRecoveries_spec {records : List LogRecord} {files : Nat → Option DiskManager}
    (present : ∀ record ∈ recoveryWrites records, HasPage files record.key) (stops : List Nat) :
    ∃ left, stoppedRecoveries records files stops = some left ∧ SameSizes files left ∧
      ∀ key, key ∉ (recoveryWrites records).map LogRecord.key → fileImage left key = fileImage files key := by
  induction stops generalizing files with
  | nil => exact ⟨files, rfl, fun _ => rfl, fun _ _ => rfl⟩
  | cons stop stops ih =>
    have taken : ∀ record ∈ (recoveryWrites records).take stop, record ∈ recoveryWrites records :=
      fun record isTaken => List.mem_of_mem_take isTaken
    obtain ⟨next, replayed, sizes, image⟩ := foldlM_replay ((recoveryWrites records).take stop) fun record isTaken =>
      present record (taken record isTaken)
    obtain ⟨left, rest, restSizes, untouched⟩ := @ih next fun record isWrite =>
      sizes.hasPage.mpr (present record isWrite)
    refine ⟨left, ?_, fun objectId => (restSizes objectId).trans (sizes objectId), fun key unwritten => ?_⟩
    · rw [stoppedRecoveries, List.foldlM_cons]
      exact Option.bind_eq_some_iff.mpr ⟨next, replayed, rest⟩
    · rw [untouched key unwritten, image, applyWrites_unwritten]
      rw [List.map_map]
      exact fun isWritten => unwritten ((List.take_sublist _ _).map _ |>.subset isWritten)

/-- An Update record whose transaction has a Commit record somewhere in the list. -/
def LogRecord.CommittedIn (records : List LogRecord) (record : LogRecord) : Prop :=
  record.type = .kUpdate ∧ ∃ commit ∈ records, commit.type = .kCommit ∧ commit.txnId = record.txnId

instance (records : List LogRecord) : DecidablePred (LogRecord.CommittedIn records) := fun _ =>
  inferInstanceAs (Decidable (_ ∧ _))

theorem recoveryWrites_eq (records : List LogRecord) :
    recoveryWrites records = records.filter fun record => record.CommittedIn records := by
  refine List.filter_congr fun record _ => decide_eq_decide.mpr ?_
  simp [LogRecord.CommittedIn, List.mem_map, and_assoc]

theorem applyWrites_getLast? (store : PageKey → PageImage) (writes : List LogRecord) (key : PageKey) :
    applyWrites store (writes.map fun record => (record.key, record.pageImage)) key =
      (((writes.filter fun record => record.key = key).getLast?.map LogRecord.pageImage).getD (store key)) := by
  induction writes using List.reverseRecOn with
  | nil => rfl
  | append_singleton writes record ih =>
    rw [List.map_append, List.map_singleton, applyWrites_snoc, List.filter_append]
    by_cases here : record.key = key
    · simp [here]
    · simp [here, Ne.symm here, ih]

/-- Each page is left at its last committed image, however often recovery was stopped and started again before. -/
theorem recovery_leaves_last_committed (records : List LogRecord) (files : Nat → Option DiskManager)
    (present : ∀ record ∈ records, record.CommittedIn records → HasPage files record.key) :
    let replayed := records.filter fun record => record.CommittedIn records
    ∃ files', runRecoveryCounted records files = some (files', replayed.length) ∧ SameSizes files files' ∧
      (∀ key, fileImage files' key = ((replayed.filter fun record => record.key = key).getLast?.map
        LogRecord.pageImage).getD (fileImage files key)) ∧
      ∀ stops, ∃ left, stoppedRecoveries records files stops = some left ∧
        runRecoveryCounted records left = some (files', replayed.length) := by
  rw [← recoveryWrites_eq]
  have present : ∀ record ∈ recoveryWrites records, HasPage files record.key := by
    intro record isWrite
    rw [recoveryWrites_eq, List.mem_filter, decide_eq_true_eq] at isWrite
    exact present record isWrite.1 isWrite.2
  obtain ⟨files', recovered, sizes, image⟩ := foldlM_replay (recoveryWrites records) present
  have counted : ∀ start after, (recoveryWrites records).foldlM replay start = some after →
      runRecoveryCounted records start = some (after, (recoveryWrites records).length) := by
    intro start after done
    rw [runRecoveryCounted_eq, runRecovery, done, Option.map_some]
  refine ⟨files', counted files files' recovered, sizes, fun key => ?_, fun stops => ?_⟩
  · rw [image, applyWrites_getLast?]
  · obtain ⟨left, stopped, leftSizes, untouched⟩ := stoppedRecoveries_spec present stops
    obtain ⟨again, replayed, againSizes, againImage⟩ := foldlM_replay (recoveryWrites records) fun record isWrite =>
      leftSizes.hasPage.mpr (present record isWrite)
    have same : again = files' := by
      refine files_ext (fun objectId => ?_) fun key => ?_
      · rw [againSizes objectId, leftSizes objectId, sizes objectId]
      · rw [againImage, image]
        refine applyWrites_congr _ _ _ key ?_
        rw [List.map_map]
        by_cases written : key ∈ (recoveryWrites records).map LogRecord.key
        · exact .inl written
        · exact .inr (untouched key written)
    exact ⟨left, stopped, counted left files' (same ▸ replayed)⟩

-- transactions 1 and 3 commit, 2 has written the page last
def interleavedRecords : List LogRecord := [
  { lsn := 1, type := .kUpdate, txnId := 1, objectId := 0, pageId := 0, pageImage := .ofBytes [1] },
  { lsn := 2, type := .kUpdate, txnId := 3, objectId := 0, pageId := 0, pageImage := .ofBytes [3] },
  { lsn := 3, type := .kCommit, txnId := 1 },
  { lsn := 4, type := .kUpdate, txnId := 2, objectId := 0, pageId := 0, pageImage := .ofBytes [2] },
  { lsn := 5, type := .kCommit, txnId := 3 }]

theorem recovery_leaves_last_committed_interleaved :
    let files : Nat → Option DiskManager := fun objectId => if objectId = 0 then some { pages := [.ofBytes [7]] } else none
    ∃ files', runRecoveryCounted interleavedRecords files = some (files', 2) ∧
      fileImage files' ⟨0, 0⟩ = .ofBytes [3] ∧ fileImage files ⟨0, 0⟩ = .ofBytes [7] ∧
      ∃ left, stoppedRecoveries interleavedRecords files [1, 0] = some left ∧
        runRecoveryCounted interleavedRecords left = some (files', 2) := by
  intro files
  have present : ∀ record ∈ interleavedRecords, record.CommittedIn interleavedRecords → HasPage files record.key := by
    intro record isRecord committed
    have onlyObject : record.key = ⟨0, 0⟩ := by
      simp only [interleavedRecords, List.mem_cons, List.not_mem_nil, or_false] at isRecord
      rcases isRecord with rfl | rfl | rfl | rfl | rfl
      · rfl
      · rfl
      · exact absurd committed.1 (by decide)
      · rfl
      · exact absurd committed.1 (by decide)
    rw [onlyObject]
    exact ⟨{ pages := [.ofBytes [7]] }, rfl, by decide⟩
  obtain ⟨files', recovered, -, image, stopped⟩ := recovery_leaves_last_committed interleavedRecords files present
  have two : (interleavedRecords.filter fun record => record.CommittedIn interleavedRecords).length = 2 := by decide
  rw [two] at recovered stopped
  refine ⟨files', recovered, ?_, rfl, stopped [1, 0]⟩
  rw [image]
  rfl

end FlintDB
