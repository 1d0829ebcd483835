import FlintDB.Txn.Rollback

set_option autoImplicit false

-- Nothing fsyncs a data file, so after a power loss any of the file extensions and page writes of a run may be
-- missing. Redo brings back the page writes; the extensions are in no log record.

namespace FlintDB

open Lib

/-- One operation on a data file. -/
inductive DiskOp
  -- AllocatePage's ftruncate: the file is never longer than that
  | extend (objectId numPages : Nat)
  -- WritePage's pwrite, of which `bytes` bytes have been written
  | write (key : PageKey) (bytes : Nat) (image : PageImage)
  deriving DecidableEq

namespace DiskOp

def objectId : DiskOp → Nat
  | extend objectId _ => objectId
  | write key _ _ => key.objectId

def grow (disk : DiskManager) (numPages : Nat) : DiskManager :=
  { pages := disk.pages ++ List.replicate (numPages - disk.numPages) .zero }

-- A page write behind the end of the file makes the file longer.
def onFile (disk : DiskManager) : DiskOp → DiskManager
  | extend _ numPages => grow disk numPages
  | write key bytes image =>
    { pages := (grow disk (key.pageId + 1)).pages.set key.pageId (.overwrite bytes image (disk.image key.pageId)) }

def apply (files : Nat → Option DiskManager) (op : DiskOp) : Nat → Option DiskManager :=
  Function.update files op.objectId ((files op.objectId).map fun disk => op.onFile disk)

theorem grow_of_le {disk : DiskManager} {numPages : Nat} (enough : numPages ≤ disk.numPages) :
    grow disk numPages = disk := by
  simp [grow, Nat.sub_eq_zero_of_le enough]

theorem image_grow (disk : DiskManager) (numPages pageId : Nat) :
    (grow disk numPages).image pageId = disk.image pageId := by
  simp only [DiskManager.image, DiskManager.readPage, grow, List.getElem?_append]
  split
  · rfl
  · rename_i beyond
    rw [List.getElem?_eq_none (Nat.le_of_not_lt beyond), List.getElem?_replicate]
    split <;> rfl

theorem numPages_grow (disk : DiskManager) (numPages : Nat) :
    (grow disk numPages).numPages = max disk.numPages numPages := by
  simp only [DiskManager.numPages, grow, List.length_append, List.length_replicate]
  omega

theorem image_onFile (disk : DiskManager) (op : DiskOp) (pageId : Nat)
    (other : ∀ key bytes image, op = .write key bytes image → key.pageId ≠ pageId) :
    (op.onFile disk).image pageId = disk.image pageId := by
  cases op with
  | extend objectId numPages => exact image_grow disk numPages pageId
  | write key bytes image =>
    have within : key.pageId < (grow disk (key.pageId + 1)).numPages := by
      rw [numPages_grow]
      omega
    rw [onFile, DiskManager.image_set _ _ _ _ within, if_neg (other key bytes image rfl).symm, image_grow]

theorem fileImage_apply (files : Nat → Option DiskManager) (op : DiskOp) (key : PageKey) :
    fileImage (op.apply files) key = fileImage files key ∨ ∃ bytes image, op = .write key bytes image := by
  by_cases here : ∃ bytes image, op = .write key bytes image
  · exact .inr here
  · refine .inl ?_
    by_cases sameObject : key.objectId = op.objectId
    · rw [fileImage, fileImage, apply, sameObject, Function.update_self]
      cases files op.objectId with
      | none => rfl
      | some disk =>
        refine image_onFile disk op key.pageId ?_
        rintro key' bytes image rfl samePage
        refine here ⟨bytes, image, ?_⟩
        obtain ⟨objectId, pageId⟩ := key
        obtain ⟨objectId', pageId'⟩ := key'
        simp only [DiskOp.objectId] at sameObject samePage
        rw [sameObject, samePage]
    · rw [fileImage, fileImage, apply, Function.update_of_ne sameObject]

theorem fileImage_foldl (ops : List DiskOp) (files : Nat → Option DiskManager) (key : PageKey) :
    fileImage (ops.foldl apply files) key = fileImage files key ∨ ∃ bytes image, .write key bytes image ∈ ops := by
  induction ops generalizing files with
  | nil => exact .inl rfl
  | cons op ops ih =>
    rcases ih (op.apply files) with same | ⟨bytes, image, later⟩
    · rcases fileImage_apply files op key with same' | ⟨bytes, image, rfl⟩
      · exact .inl (same.trans same')
      · exact .inr ⟨bytes, image, List.mem_cons_self⟩
    · exact .inr ⟨bytes, image, List.mem_cons_of_mem _ later⟩

end DiskOp

namespace Engine

variable {init : PageKey → PageImage} {events : List Event} {event : Event} {s s' : Engine} {key : PageKey}

-- The bytes FlushPages writes for the page, if it writes any.
def flushedImage (s : Engine) (key : PageKey) : Option PageImage := do
  let pool ← s.pools key.objectId
  let image ← pool.pages key.pageId
  if key.pageId ∈ pool.dirty then some image else none

def diskOp (s : Engine) : Event → Option DiskOp
  | .allocate _ key => some (.extend key.objectId (key.pageId + 1))
  | .flushPage _ key => (s.flushedImage key).map (.write key pageSize)
  | .flushPageTorn _ key bytes => (s.flushedImage key).map (.write key bytes)
  | _ => none

-- The operations on the data files in the order of the run.
def diskOps : Engine → List Event → List DiskOp
  | _, [] => []
  | s, event :: events =>
    (s.diskOp event).toList ++
      match s.step event with
      | none => []
      | some s' => diskOps s' events

theorem diskOps_snoc {start : Engine} (reached : run step start events = some s) (event : Event) :
    diskOps start (events ++ [event]) = diskOps start events ++ (s.diskOp event).toList := by
  induction events generalizing start with
  | nil =>
    cases Option.some.inj reached
    simp only [List.nil_append, diskOps]
    split <;> simp
  | cons first events ih =>
    obtain ⟨m, stepped, onward⟩ := Option.bind_eq_some_iff.mp reached
    simp only [List.cons_append, diskOps, stepped, ih onward, List.append_assoc]

theorem files_setPool (s : Engine) (objectId : Nat) (pool : BufferPool) :
    (s.setPool objectId pool).files = Function.update s.files objectId (some pool.disk) := by
  funext other
  by_cases same : other = objectId
  · subst same
    simp [files, setPool]
  · simp [files, setPool, same]

theorem files_setPool_same {objectId : Nat} {pool next : BufferPool} (found : s.pools objectId = some pool)
    (same : next.disk = pool.disk) : (s.setPool objectId next).files = s.files := by
  rw [files_setPool, same]
  exact Function.update_eq_self_iff.mpr (by simp [files, found])

theorem fetchPage_disk {pool next : BufferPool} {pageId : Nat} {image : PageImage}
    (fetched : pool.fetchPage pageId = some (image, next)) : next.disk = pool.disk := by
  rw [(BufferPool.fetchPage_some fetched).2.1]
  rfl

theorem apply_eq {pool : BufferPool} (op : DiskOp) (found : s.pools op.objectId = some pool) :
    op.apply s.files = Function.update s.files op.objectId (some (op.onFile pool.disk)) := by
  simp [DiskOp.apply, files, found]

theorem files_flush {pool : BufferPool} {image : PageImage} {bytes : Nat} {disk : DiskManager} {dirty : Finset Nat}
    (found : s.pools key.objectId = some pool)
    (written : pool.disk.writePage key.pageId (.overwrite bytes image (pool.disk.image key.pageId)) = some disk) :
    (s.setPool key.objectId { pool with disk := disk, dirty := dirty }).files =
      (DiskOp.write key bytes image).apply s.files := by
  obtain ⟨within, rfl⟩ := DiskManager.writePage_some written
  have same : DiskOp.onFile pool.disk (.write key bytes image) =
      { pages := pool.disk.pages.set key.pageId (.overwrite bytes image (pool.disk.image key.pageId)) } := by
    rw [DiskOp.onFile, DiskOp.grow_of_le within]
  rw [files_setPool, apply_eq (.write key bytes image) found, same]
  rfl

theorem files_flushPage {pool next : BufferPool} (found : s.pools key.objectId = some pool)
    (flushed : pool.flushPage key.pageId = some next) :
    (s.setPool key.objectId next).files =
      ((s.flushedImage key).map (.write key pageSize)).toList.foldl DiskOp.apply s.files := by
  unfold BufferPool.flushPage at flushed
  split at flushed
  · rename_i uncached
    cases flushed
    rw [files_setPool_same found rfl]
    simp [flushedImage, found, uncached]
  · rename_i image isCached
    split at flushed
    · rename_i isDirty
      split at flushed
      · cases flushed
      · rename_i disk written
        cases flushed
        rw [← PageImage.overwrite_all image (pool.disk.image key.pageId)] at written
        rw [files_flush found written]
        simp [flushedImage, found, isCached, isDirty]
    · rename_i clean
      cases flushed
      rw [files_setPool_same found rfl]
      simp [flushedImage, found, isCached, clean]

theorem step_files (stepped : s.step event = some s') :
    s'.files = (s.diskOp event).toList.foldl DiskOp.apply s.files := by
  cases event with
  | begin txnId =>
    obtain ⟨-, -, rfl⟩ := step_begin stepped
    rfl
  | appendBegin txnId =>
    obtain ⟨txn, log, lsn, -, -, -, rfl⟩ := step_appendBegin stepped
    rfl
  | lock txnId key mode =>
    obtain ⟨txn, -, -, rfl | ⟨next, -, rfl⟩⟩ := step_lock stepped <;> rfl
  | read txnId key image =>
    simp only [step, Option.bind_eq_bind, Option.bind_eq_some_iff, Option.ite_none_right_eq_some,
      Option.some.injEq] at stepped
    obtain ⟨txn, -, pool, found, ⟨content, next⟩, fetched, -, rfl⟩ := stepped
    exact files_setPool_same found (fetchPage_disk fetched)
  | write txnId key image =>
    simp only [step, Option.bind_eq_bind, Option.bind_eq_some_iff, Option.ite_none_right_eq_some,
      Option.some.injEq] at stepped
    obtain ⟨txn, -, pool, found, ⟨content, next⟩, fetched, -, rfl⟩ := stepped
    have sameDisk : next.disk = pool.disk := fetchPage_disk fetched
    exact files_setPool_same found (show (next.writeDirty key.pageId image).disk = pool.disk from sameDisk)
  | allocate txnId key =>
    simp only [step, Option.bind_eq_bind, Option.bind_eq_some_iff, Option.ite_none_right_eq_some] at stepped
    obtain ⟨txn, -, pool, found, ⟨-, room, pageId⟩, answered⟩ := stepped
    rw [BufferPool.newPage_eq room] at pageId answered
    have grown : DiskOp.onFile pool.disk (.extend key.objectId (key.pageId + 1)) =
        { pages := pool.disk.pages ++ [PageImage.zero] } := by
      simp [DiskOp.onFile, DiskOp.grow, pageId]
    split at answered
    · cases answered
      have extended := apply_eq (.extend key.objectId (key.pageId + 1)) found
      rw [grown] at extended
      exact (files_setPool s key.objectId _).trans extended.symm
    · cases answered
    · cases answered
  | commit txnId =>
    obtain ⟨txn, -, -, rfl⟩ := step_commit stepped
    rfl
  | appendUpdate txnId key image =>
    simp only [step, Option.bind_eq_bind, Option.bind_eq_some_iff] at stepped
    obtain ⟨txn, -, pool, found, ⟨content, next⟩, fetched, ⟨log, lsn⟩, -, moved⟩ := stepped
    split at moved
    · simp only [Option.ite_none_right_eq_some, Option.some.injEq] at moved
      obtain ⟨-, rfl⟩ := moved
      exact files_setPool_same found (fetchPage_disk fetched)
    · cases moved
  | appendCommit txnId =>
    obtain ⟨txn, log, lsn, -, -, -, rfl⟩ := step_appendCommit stepped
    rfl
  | flushBegin txnId =>
    obtain ⟨txn, lsn, -, -, -, -, rfl⟩ := step_flushBegin stepped
    rfl
  | fsync txnId covered =>
    obtain ⟨flusher, -, -, -, -, rfl⟩ := step_fsync stepped
    rfl
  | flushEnd txnId =>
    obtain ⟨flusher, -, -, -, rfl⟩ := step_flushEnd stepped
    rfl
  | flushReturn txnId =>
    obtain ⟨txn, lsn, -, -, -, rfl⟩ := step_flushReturn stepped
    rfl
  | flushPage txnId key =>
    simp only [step, Option.bind_eq_bind, Option.bind_eq_some_iff] at stepped
    obtain ⟨txn, -, pool, found, next, flushed, moved⟩ := stepped
    split at moved
    · simp only [Option.ite_none_right_eq_some, Option.some.injEq] at moved
      obtain ⟨-, rfl⟩ := moved
      exact files_flushPage found flushed
    · cases moved
  | flushPageTorn txnId key bytes =>
    simp only [step, Option.bind_eq_bind, Option.bind_eq_some_iff] at stepped
    obtain ⟨txn, -, pool, found, next, flushed, moved⟩ := stepped
    split at moved
    · simp only [Option.ite_none_right_eq_some, Option.some.injEq] at moved
      obtain ⟨-, rfl⟩ := moved
      unfold BufferPool.flushPageTorn at flushed
      split at flushed
      · rename_i uncached
        cases flushed
        rw [files_setPool_same found rfl]
        simp [diskOp, flushedImage, found, uncached]
      · rename_i image isCached
        split at flushed
        · rename_i isDirty
          split at flushed
          · cases flushed
          · rename_i disk written
            cases flushed
            rw [files_flush found written]
            simp [diskOp, flushedImage, found, isCached, isDirty]
        · rename_i clean
          cases flushed
          rw [files_setPool_same found rfl]
          simp [diskOp, flushedImage, found, isCached, clean]
    · cases moved
  | commitRelease txnId =>
    obtain ⟨txn, -, -, rfl⟩ := step_commitRelease stepped
    rfl
  | abort txnId =>
    obtain ⟨txn, -, -, rfl⟩ := step_abort stepped
    rfl
  | discardPage txnId key =>
    simp only [step, Option.bind_eq_bind, Option.bind_eq_some_iff] at stepped
    obtain ⟨txn, -, pool, found, next, discarded, moved⟩ := stepped
    split at moved
    · simp only [Option.ite_none_right_eq_some, Option.some.injEq] at moved
      obtain ⟨-, rfl⟩ := moved
      refine files_setPool_same found ?_
      rcases BufferPool.discardPage_some discarded with ⟨-, rfl⟩ | ⟨-, -, rfl⟩ <;> rfl
    · cases moved
  | appendAbort txnId =>
    obtain ⟨txn, log, lsn, -, -, -, rfl⟩ := step_appendAbort stepped
    rfl
  | abortRelease txnId =>
    obtain ⟨txn, -, -, rfl⟩ := step_abortRelease stepped
    rfl

theorem files_start (log : LogManager) (files : Nat → Option DiskManager) : (start log files).files = files := by
  funext objectId
  simp [Engine.files, start, Option.map_map, Function.comp_def]

theorem files_eq_diskOps {log : LogManager} {files : Nat → Option DiskManager}
    (reached : run step (start log files) events = some s) :
    s.files = (diskOps (start log files) events).foldl DiskOp.apply files := by
  refine run_induction (fun events s => s.files = (diskOps (start log files) events).foldl DiskOp.apply files)
    (files_start log files) ?_ reached
  intro events s event s' before ih stepped
  rw [step_files stepped, diskOps_snoc before, List.foldl_append, ih]

theorem write_is_logged {data : DataFiles} (reached : run step (start (LogManager.open []) data.file) events = some s)
    {bytes : Nat} {image : PageImage}
    (member : .write key bytes image ∈ diskOps (start (LogManager.open []) data.file) events) :
    ∃ txnId, Durable [] (logEntries events) s.log.file.synced txnId ∧ Updated (logEntries events) txnId key := by
  have emptyLog : OpenedLog [] (LogManager.open []) := openedLog_cut [] ⟨by simp, by simp, Nat.zero_le _⟩ 0
  refine run_induction (fun events s => .write key bytes image ∈ diskOps (start (LogManager.open []) data.file) events →
    ∃ txnId, Durable [] (logEntries events) s.log.file.synced txnId ∧ Updated (logEntries events) txnId key)
    (fun member => by simp [diskOps] at member) ?_ reached member
  intro events s event s' before ih stepped member
  have grown := logEntries_grow events event
  have logged := Logged.reached emptyLog data.fits (by simp [Updated]) before
  have serial := Serial.reached before
  suffices already : ∃ txnId, Durable [] (logEntries events) s.log.file.synced txnId ∧
      Updated (logEntries events) txnId key by
    obtain ⟨txnId, durable, image, updated⟩ := already
    exact ⟨txnId, durable.grow grown (moved serial.wellFormed serial.born stepped).synced, image,
      grown.subset updated⟩
  rw [diskOps_snoc before] at member
  rcases List.mem_append.mp member with earlier | now
  · exact ih earlier
  · have ofFlusher : ∀ {txnId txn pending}, s.activeTxns txnId = some txn → txn.phase = .flushing pending →
        key ∈ pending → ∃ txnId, Durable [] (logEntries events) s.log.file.synced txnId ∧
          Updated (logEntries events) txnId key := by
      intro txnId txn pending active phase member
      have mine := logged.active txnId txn active
      simp only [TxnLogged, phase] at mine
      exact ⟨txnId, mine.1, (mine.2 key).mpr (serial.dirtied_of_pending active phase member)⟩
    cases event with
    | flushPage txnId key' =>
      obtain ⟨txn, pending, pools, active, phase, inPending, -⟩ := step_flushPage stepped
      simp only [diskOp, Option.mem_toList, Option.map_eq_some_iff, DiskOp.write.injEq] at now
      obtain ⟨_, -, rfl, -⟩ := now
      exact ofFlusher active phase inPending
    | flushPageTorn txnId key' bytes' =>
      obtain ⟨txn, pending, pools, active, phase, inPending, -⟩ := step_flushPageTorn stepped
      simp only [diskOp, Option.mem_toList, Option.map_eq_some_iff, DiskOp.write.injEq] at now
      obtain ⟨_, -, rfl, -⟩ := now
      exact ofFlusher active phase inPending
    | _ => simp [diskOp] at now

end Engine

theorem mem_recoveryWrites_iff {records : List LogRecord} {key : PageKey} :
    (∃ record ∈ recoveryWrites records, record.key = key) ↔
      ∃ txnId ∈ commits (records.map LogRecord.entry), Updated (records.map LogRecord.entry) txnId key := by
  have keys : (∃ record ∈ recoveryWrites records, record.key = key) ↔
      key ∈ ((recoveryWrites records).map fun record => (record.key, record.pageImage)).map Prod.fst := by
    simp [List.map_map, Function.comp_def]
  rw [keys, recoveryWrites_entry, mem_keys_updatesBy]
  simp only [decide_eq_true_eq, Updated]
  constructor
  · rintro ⟨txnId, image, committed, member⟩
    exact ⟨txnId, committed, image, member⟩
  · rintro ⟨txnId, committed, image, member⟩
    exact ⟨txnId, image, committed, member⟩

namespace Engine

-- The data files with those operations of the run that reached the disk.
def filesAfter (data : DataFiles) (kept : List DiskOp) : Nat → Option DiskManager := kept.foldl DiskOp.apply data.file

/-- A run, and what a power loss at its end leaves: at least the log records that an fsync has covered, and any part of
the operations on the data files. -/
structure PowerLoss (data : DataFiles) (events : List Event) (s : Engine) (kept : List DiskOp) (n : Nat) : Prop where
  reached : run step (start (LogManager.open []) data.file) events = some s
  kept : kept.Sublist (diskOps (start (LogManager.open []) data.file) events)
  behind : s.log.file.coveredEnd ≤ n

/-- The next open goes through: the transactions with a Commit record in the log are there with all their pages, those
whose Commit returned among them, and no others. -/
def Reopens (data : DataFiles) (events : List Event) (s : Engine) (kept : List DiskOp) (n : Nat) : Prop :=
  ∃ recovered,
    runRecovery (LogManager.open (s.log.file.content.take n)).recordsOnOpen (filesAfter data kept) = some recovered ∧
    (∀ key, fileImage recovered key = applyWrites (fileImage data.file)
      ((commits (surviving events n)).flatMap fun txnId => writesOf (accessesOf txnId events)) key) ∧
    (∀ txnId ∈ commits (surviving events n), ∀ key ∈ (writesOf (accessesOf txnId events)).map Prod.fst,
      HasPage recovered key) ∧
    ∀ txnId ∈ released events, txnId ∈ commits (surviving events n)

/-- Every page that a committed Update record in what is left of the log names lies within what is left of its file. -/
def FilesReach (data : DataFiles) (events : List Event) (kept : List DiskOp) (n : Nat) : Prop :=
  ∀ txnId key, txnId ∈ commits (surviving events n) → Updated (surviving events n) txnId key →
    HasPage (filesAfter data kept) key

theorem reopens_iff_files_reach (data : DataFiles) (events : List Event) (s : Engine) (kept : List DiskOp) (n : Nat)
    (loss : PowerLoss data events s kept n) : Reopens data events s kept n ↔ FilesReach data events kept n := by
  obtain ⟨reached, isKept, behind⟩ := loss
  have emptyLog : OpenedLog [] (LogManager.open []) := openedLog_cut [] ⟨by simp, by simp, Nat.zero_le _⟩ 0
  have serial := Serial.reached reached
  have logged := Logged.reached emptyLog data.fits (by simp [Updated]) reached
  obtain ⟨records, opened, survived⟩ := logged.reopened (n := n) (Nat.zero_le n)
  simp only [List.nil_append, goodLength, List.map_nil, List.sum_nil, Nat.sub_zero] at opened survived
  have onOpen : (LogManager.open (s.log.file.content.take n)).recordsOnOpen = records := opened.onOpen
  constructor
  · rintro ⟨recovered, replayed, -⟩ txnId key committed updated
    rw [onOpen] at replayed
    rw [← survived] at committed updated
    obtain ⟨record, member, rfl⟩ := mem_recoveryWrites_iff.mpr ⟨txnId, committed, updated⟩
    exact foldlM_replay_hasPage replayed record member
  · intro reaches
    have present : ∀ record ∈ recoveryWrites records, HasPage (filesAfter data kept) record.key := by
      intro record member
      obtain ⟨txnId, committed, updated⟩ := mem_recoveryWrites_iff.mp ⟨record, member, rfl⟩
      rw [survived] at committed updated
      exact reaches txnId record.key committed updated
    obtain ⟨recovered, replayed, sameSizes, image⟩ := runRecovery_of_reaching records present
    -- whatever of a page write is left or lost, redo writes that page again
    have redone : ∀ key, fileImage (filesAfter data kept) key = fileImage data.file key ∨
        ∃ txnId ∈ commits (surviving events n), ∃ image, .update txnId key image ∈ surviving events n := by
      intro key
      refine (DiskOp.fileImage_foldl kept data.file key).imp_right ?_
      rintro ⟨bytes, image, member⟩
      obtain ⟨txnId, durable, updated⟩ := write_is_logged reached (isKept.subset member)
      obtain ⟨committed, updates⟩ := logged.durable_survives (logged.durable_of_covered behind durable)
      exact ⟨txnId, committed, updates key updated⟩
    refine ⟨recovered, by rw [onOpen]; exact replayed, fun key => ?_, fun txnId committed key written => ?_,
      fun txnId done => logged.released_survives serial behind done⟩
    · rw [image, survived, ← logged.redo_surviving serial]
      exact congrFun (redo_congr redone) key
    · refine sameSizes.hasPage.mpr (reaches txnId key committed ?_)
      have isPrefix := Logged.surviving_isPrefix events n
      have everywhere : txnId ∈ commits (logEntries events) :=
        mem_commits.mpr (isPrefix.subset (mem_commits.mp committed))
      obtain ⟨image', member⟩ := (logged.updated_of_committed serial everywhere).mpr written
      obtain ⟨before, after, cut⟩ := List.append_of_mem (mem_commits.mp committed)
      have early : .update txnId key image' ∈ before := by
        refine logged.isolated.update_before_commit (List.IsPrefix.trans ?_ isPrefix) member
        exact ⟨after, by rw [cut]; simp⟩
      exact ⟨image', by rw [cut]; exact List.mem_append_left _ early⟩

def allocatedEvents : List Event :=
  [.begin 1, .appendBegin 1, .allocate 1 ⟨0, 0⟩, .commit 1, .appendUpdate 1 ⟨0, 0⟩ .zero, .appendCommit 1,
    .flushBegin 1, .fsync 1 4195, .flushEnd 1, .flushReturn 1, .flushPage 1 ⟨0, 0⟩, .commitRelease 1]

set_option maxRecDepth 100000 in
-- the extension is kept, the page write is lost
theorem reopens_iff_files_reach_extended : ∃ s,
    PowerLoss oneEmptyFile allocatedEvents s [.extend 0 1] 4195 ∧
      (Reopens oneEmptyFile allocatedEvents s [.extend 0 1] 4195 ↔
        FilesReach oneEmptyFile allocatedEvents [.extend 0 1] 4195) := by
  have ran : ((run step (start (LogManager.open []) oneEmptyFile.file) allocatedEvents).map
      fun s => decide (s.log.file.coveredEnd ≤ 4195)) = some true := by decide +kernel
  have ops : diskOps (start (LogManager.open []) oneEmptyFile.file) allocatedEvents =
      [.extend 0 1, .write ⟨0, 0⟩ pageSize .zero] := by decide +kernel
  obtain ⟨s, reached, behind⟩ := Option.map_eq_some_iff.mp ran
  have loss : PowerLoss oneEmptyFile allocatedEvents s [.extend 0 1] 4195 :=
    ⟨reached, by rw [ops]; simp, of_decide_eq_true behind⟩
  exact ⟨s, loss, reopens_iff_files_reach oneEmptyFile allocatedEvents s [.extend 0 1] 4195 loss⟩

set_option maxRecDepth 100000 in
/-- Without the extension, the page that the committed Update record names is not there, and the open throws. -/
theorem lost_extension_throws : ¬ ∀ data events s kept n,
    PowerLoss data events s kept n → Reopens data events s kept n := by
  intro always
  have ran : ((run step (start (LogManager.open []) oneEmptyFile.file) allocatedEvents).map fun s =>
      decide (s.log.file.coveredEnd ≤ 4195) &&
        (runRecovery (LogManager.open (s.log.file.content.take 4195)).recordsOnOpen oneEmptyFile.file).isNone) =
      some true := by decide +kernel
  obtain ⟨s, reached, known⟩ := Option.map_eq_some_iff.mp ran
  obtain ⟨behind, throws⟩ := Bool.and_eq_true_iff.mp known
  obtain ⟨recovered, replayed, -⟩ := always oneEmptyFile allocatedEvents s [] 4195
    ⟨reached, List.nil_sublist _, of_decide_eq_true behind⟩
  cases (Option.isNone_iff_eq_none.mp throws).symm.trans replayed

end Engine

end FlintDB
