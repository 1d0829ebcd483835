import FlintDB.Lib.RedoLog
import FlintDB.Storage.DiskManager
import FlintDB.Wal.LogManager
import Mathlib.Logic.Function.Basic

set_option autoImplicit false

namespace FlintDB

open Lib

def encodeAll (records : List LogRecord) : Bytes := records.flatMap LogRecord.encode

theorem encodeAll_length (records : List LogRecord) :
    (encodeAll records).length = goodLength records :=
  flatMap_encode_length LogRecord.encode_length records

theorem length_le_goodLength (records : List LogRecord) :
    33 * records.length ≤ goodLength records := by
  induction records with
  | nil => simp [goodLength]
  | cons record rest ih =>
    have first := LogRecord.recordLen_pos record.type
    simp only [goodLength, List.map_cons, List.sum_cons, List.length_cons, LogRecord.size] at ih ⊢
    omega

theorem scanRecords_cut {records : List LogRecord} (canonical : ∀ record ∈ records, record.Canonical)
    (n : Nat) : scanRecords ((encodeAll records).take n) = within LogRecord.size records n :=
  scan_cut (fun record rest canonical => parseRecord_encode record canonical rest)
    (fun record _ cut => parseRecord_torn record cut) rfl LogRecord.encode_length
    (fun record => Nat.lt_of_lt_of_le (by decide) (LogRecord.recordLen_pos record.type)) canonical n
    _ (Nat.le_refl _)

theorem open_cut {records : List LogRecord} (canonical : ∀ record ∈ records, record.Canonical)
    (n : Nat) :
    (LogManager.open ((encodeAll records).take n)).file.content =
        encodeAll (within LogRecord.size records n) ∧
      (LogManager.open ((encodeAll records).take n)).recordsOnOpen =
        within LogRecord.size records n := by
  have found := scanRecords_cut canonical n
  obtain ⟨torn, split⟩ := within_isPrefix LogRecord.size records n
  have total : encodeAll records =
      encodeAll (within LogRecord.size records n) ++ encodeAll torn := by
    rw [← split, encodeAll, List.flatMap_append, split]
    rfl
  have length := encodeAll_length (within LogRecord.size records n)
  have fits : goodLength (within LogRecord.size records n) ≤ n := within_size records n
  refine ⟨?_, by simp only [LogManager.open, found]⟩
  simp only [LogManager.open, found]
  split
  · simp only [WalFile.ftruncate, List.take_take, Nat.min_eq_left fits]
    rw [total, List.take_append_of_le_length length.ge, List.take_of_length_le length.le]
  · rename_i whole
    rw [List.length_take] at whole
    have covered : ((encodeAll records).take n).length ≤
        goodLength (within LogRecord.size records n) := by
      rw [List.length_take]
      omega
    have again := congrArg (List.take (goodLength (within LogRecord.size records n)))
      (congrArg (List.take n) total)
    rw [List.take_of_length_le covered, List.take_take, Nat.min_eq_left fits,
      List.take_append_of_le_length length.ge, List.take_of_length_le length.le] at again
    exact again

-- The fields of a record that recovery looks at.
def LogRecord.entry (record : LogRecord) : LogEntry Nat PageKey PageImage :=
  match record.type with
  | .kUpdate => .update record.txnId ⟨record.objectId, record.pageId⟩ record.pageImage
  | .kCommit => .commit record.txnId
  | .kBegin | .kAbort => .other record.txnId

def LogRecord.key (record : LogRecord) : PageKey := ⟨record.objectId, record.pageId⟩

-- The Update records RunRecovery writes to the data files, in order.
def recoveryWrites (records : List LogRecord) : List LogRecord :=
  let committed := (records.filter fun record => record.type = .kCommit).map LogRecord.txnId
  records.filter fun record => record.type = .kUpdate ∧ record.txnId ∈ committed

-- `none`: .at() found no such object, or WritePage no such page.
def replay (files : Nat → Option DiskManager) (record : LogRecord) :
    Option (Nat → Option DiskManager) := do
  let disk ← files record.objectId
  let disk ← disk.writePage record.pageId record.pageImage
  some (Function.update files record.objectId (some disk))

def runRecovery (records : List LogRecord) (files : Nat → Option DiskManager) :
    Option (Nat → Option DiskManager) :=
  (recoveryWrites records).foldlM replay files

/-- The content of a page in the data files, all zero where there is none. -/
def fileImage (files : Nat → Option DiskManager) (key : PageKey) : PageImage :=
  match files key.objectId with
  | none => .zero
  | some disk => disk.image key.pageId

def HasPage (files : Nat → Option DiskManager) (key : PageKey) : Prop :=
  ∃ disk, files key.objectId = some disk ∧ key.pageId < disk.numPages

/-- The same files with the same numbers of pages. -/
def SameSizes (files files' : Nat → Option DiskManager) : Prop :=
  ∀ objectId, (files' objectId).map DiskManager.numPages = (files objectId).map DiskManager.numPages

theorem SameSizes.hasPage {files files' : Nat → Option DiskManager} (same : SameSizes files files')
    {key : PageKey} : HasPage files' key ↔ HasPage files key := by
  have here := same key.objectId
  constructor
  · rintro ⟨disk, found, within⟩
    rw [found, Option.map_some, eq_comm, Option.map_eq_some_iff] at here
    obtain ⟨disk', found', size⟩ := here
    exact ⟨disk', found', by rw [size]; exact within⟩
  · rintro ⟨disk, found, within⟩
    rw [found, Option.map_some, Option.map_eq_some_iff] at here
    obtain ⟨disk', found', size⟩ := here
    exact ⟨disk', found', by rw [size]; exact within⟩

theorem SameSizes.fits {files files' : Nat → Option DiskManager} (same : SameSizes files files')
    (fits : ∀ objectId disk, files objectId = some disk →
      objectId < 2 ^ 32 ∧ disk.numPages < 2 ^ 32) (objectId : Nat) (disk : DiskManager)
    (found : files' objectId = some disk) : objectId < 2 ^ 32 ∧ disk.numPages < 2 ^ 32 := by
  have size := same objectId
  rw [found, Option.map_some, eq_comm, Option.map_eq_some_iff] at size
  obtain ⟨disk', found', numPages⟩ := size
  rw [← numPages]
  exact fits objectId disk' found'

theorem replay_spec {files : Nat → Option DiskManager} (record : LogRecord)
    (present : HasPage files record.key) :
    ∃ files', replay files record = some files' ∧ SameSizes files files' ∧
      fileImage files' = Function.update (fileImage files) record.key record.pageImage := by
  obtain ⟨disk, found, within⟩ := present
  simp only [LogRecord.key] at found within
  refine ⟨Function.update files record.objectId
    (some { pages := disk.pages.set record.pageId record.pageImage }), ?_, ?_, ?_⟩
  · simp [replay, found, DiskManager.writePage, within]
  · intro objectId
    by_cases same : objectId = record.objectId
    · subst same
      simp [found, DiskManager.numPages]
    · simp [same]
  · funext other
    obtain ⟨objectId, pageId⟩ := other
    by_cases sameObject : objectId = record.objectId
    · subst sameObject
      by_cases samePage : pageId = record.pageId
      · subst samePage
        simp [fileImage, LogRecord.key, within]
      · have different : (⟨record.objectId, pageId⟩ : PageKey) ≠ record.key :=
          fun equal => samePage (congrArg PageKey.pageId equal)
        simp [fileImage, found, within, samePage, different]
    · have different : (⟨objectId, pageId⟩ : PageKey) ≠ record.key :=
        fun equal => sameObject (congrArg PageKey.objectId equal)
      simp [fileImage, sameObject, different]

theorem foldlM_replay {files : Nat → Option DiskManager} (records : List LogRecord)
    (present : ∀ record ∈ records, HasPage files record.key) :
    ∃ files', records.foldlM replay files = some files' ∧ SameSizes files files' ∧
      fileImage files' = applyWrites (fileImage files)
        (records.map fun record => (record.key, record.pageImage)) := by
  induction records generalizing files with
  | nil => exact ⟨files, rfl, fun _ => rfl, rfl⟩
  | cons record rest ih =>
    obtain ⟨next, replayed, same, image⟩ := replay_spec record (present record List.mem_cons_self)
    obtain ⟨files', rest', same', image'⟩ := @ih next fun other member =>
      same.hasPage.mpr (present other (List.mem_cons_of_mem _ member))
    refine ⟨files', by simp [List.foldlM_cons, replayed, rest'], fun objectId =>
      (same' objectId).trans (same objectId), ?_⟩
    rw [image', image]
    rfl

theorem foldlM_replay_hasPage {files files' : Nat → Option DiskManager} {records : List LogRecord}
    (replayed : records.foldlM replay files = some files') :
    ∀ record ∈ records, HasPage files record.key := by
  induction records generalizing files with
  | nil => simp
  | cons first rest ih =>
    simp only [List.foldlM_cons, Option.bind_eq_bind, Option.bind_eq_some_iff] at replayed
    obtain ⟨next, now, later⟩ := replayed
    have here : HasPage files first.key := by
      simp only [replay, Option.bind_eq_bind, Option.bind_eq_some_iff] at now
      obtain ⟨disk, found, written, wrote, -⟩ := now
      exact ⟨disk, found, (DiskManager.writePage_some wrote).1⟩
    obtain ⟨_, now', same, -⟩ := replay_spec first here
    cases now.symm.trans now'
    intro record member
    rcases List.mem_cons.mp member with rfl | inRest
    · exact here
    · exact same.hasPage.mp (ih later record inRest)

theorem commits_entry (records : List LogRecord) :
    commits (records.map LogRecord.entry) =
      (records.filter fun record => record.type = .kCommit).map LogRecord.txnId := by
  induction records with
  | nil => rfl
  | cons record rest ih =>
    rw [List.map_cons, commits_cons, ih]
    cases type : record.type <;> simp [LogRecord.entry, type]

theorem recoveryWrites_entry (records : List LogRecord) :
    (recoveryWrites records).map (fun record => (record.key, record.pageImage)) =
      updatesBy (fun txnId => txnId ∈ commits (records.map LogRecord.entry))
        (records.map LogRecord.entry) := by
  rw [commits_entry, recoveryWrites]
  generalize (records.filter fun record => record.type = .kCommit).map LogRecord.txnId = committed
  induction records with
  | nil => rfl
  | cons record rest ih =>
    rw [List.map_cons, updatesBy_cons, ← ih]
    cases type : record.type with
    | kUpdate =>
      by_cases member : record.txnId ∈ committed <;>
        simp [LogRecord.entry, LogRecord.key, type, member]
    | kBegin | kCommit | kAbort => simp [LogRecord.entry, type]

theorem runRecovery_of_reaching {files : Nat → Option DiskManager} (records : List LogRecord)
    (present : ∀ record ∈ recoveryWrites records, HasPage files record.key) :
    ∃ files', runRecovery records files = some files' ∧ SameSizes files files' ∧
      fileImage files' = redo (fileImage files) (records.map LogRecord.entry) := by
  obtain ⟨files', recovered, same, image⟩ := foldlM_replay (recoveryWrites records) present
  exact ⟨files', recovered, same, by rw [image, recoveryWrites_entry, redo]⟩

theorem runRecovery_spec {files : Nat → Option DiskManager} (records : List LogRecord)
    (present : ∀ record ∈ records, record.type = .kUpdate → HasPage files record.key) :
    ∃ files', runRecovery records files = some files' ∧ SameSizes files files' ∧
      fileImage files' = redo (fileImage files) (records.map LogRecord.entry) := by
  refine runRecovery_of_reaching records fun record member => ?_
  simp only [recoveryWrites, List.mem_filter, decide_eq_true_eq] at member
  exact present record member.1 member.2.1

end FlintDB
