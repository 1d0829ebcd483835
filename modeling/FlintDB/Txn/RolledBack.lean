import FlintDB.Txn.FailedRecovery

set_option autoImplicit false

namespace FlintDB

open Lib

namespace Engine

variable {init : PageKey → PageImage} {events : List Event} {event : Event} {s s' : Engine}

theorem appended_record (serial : Serial init events s) (ids : s.nextTxnId < 2 ^ 64)
    (fits : ∀ objectId n, s.numPages objectId = some n → objectId < 2 ^ 32 ∧ n < 2 ^ 32)
    (stepped : s.step event = some s') (appends : event.isAppend = true) :
    ∃ record : LogRecord, record.Canonical ∧ event.logEntry = some record.entry ∧
      record.lsn = s.log.nextLsn % 2 ^ 64 ∧
      s.log.file.content.length + record.encode.length ≤ maxFileSize ∧
      s'.log = { s.log with
        file := { s.log.file with content := s.log.file.content ++ record.encode }
        nextLsn := wrapLsn (s.log.nextLsn + 1) } ∧ s'.flusher = s.flusher := by
  have lsn_lt : s.log.nextLsn % 2 ^ 64 < 2 ^ 64 := Nat.mod_lt _ (by decide)
  have small : ∀ {txnId txn}, s.activeTxns txnId = some txn → txnId < 2 ^ 64 := fun active =>
    (serial.born _ (by simp [active])).trans ids
  have plain : ∀ (type : LogRecordType) {txnId txn}, s.activeTxns txnId = some txn →
      LogRecord.Canonical { lsn := s.log.nextLsn % 2 ^ 64, type := type, txnId := txnId } := fun type _ _ active =>
    ⟨lsn_lt, small active, by simp only; decide, by simp only; decide, fun _ => rfl⟩
  have buf : ∀ {type txnId objectId pageId payload log lsn},
      s.log.appendRecord type txnId objectId pageId payload = some (log, lsn) →
      s.log.file.content.length +
          (recordBuf (s.log.nextLsn % 2 ^ 64) type txnId objectId pageId payload).length ≤ maxFileSize ∧
        log = { s.log with
          file := { s.log.file with
            content := s.log.file.content ++
              recordBuf (s.log.nextLsn % 2 ^ 64) type txnId objectId pageId payload }
          nextLsn := wrapLsn (s.log.nextLsn + 1) } := by
    intro type txnId objectId pageId payload log lsn appended
    obtain ⟨-, room, rfl⟩ := LogManager.appendRecord_some appended
    rw [recordBuf_lsn_mod]
    exact ⟨room, rfl⟩
  cases event with
  | appendBegin txnId =>
    obtain ⟨txn, log, lsn, active, -, appended, rfl⟩ := step_appendBegin stepped
    obtain ⟨room, log_eq⟩ := buf appended
    exact ⟨{ lsn := s.log.nextLsn % 2 ^ 64, type := .kBegin, txnId := txnId }, plain .kBegin active, rfl, rfl, room,
      log_eq, rfl⟩
  | appendUpdate txnId key image =>
    obtain ⟨txn, pending, pools, log, lsn, active, phase, member, imageEq, appended, rfl, loads, within⟩ :=
      step_appendUpdate stepped
    obtain ⟨n, size, inFile⟩ := within serial.wellFormed
    obtain ⟨objectFits, sizeFits⟩ := fits key.objectId n size
    obtain ⟨room, log_eq⟩ := buf appended
    exact ⟨⟨s.log.nextLsn % 2 ^ 64, .kUpdate, txnId, key.objectId, key.pageId, image⟩,
      ⟨lsn_lt, small active, objectFits, inFile.trans sizeFits, by simp⟩, rfl, rfl, room, log_eq, rfl⟩
  | appendCommit txnId =>
    obtain ⟨txn, log, lsn, active, -, appended, rfl⟩ := step_appendCommit stepped
    obtain ⟨room, log_eq⟩ := buf appended
    exact ⟨{ lsn := s.log.nextLsn % 2 ^ 64, type := .kCommit, txnId := txnId }, plain .kCommit active, rfl, rfl, room,
      log_eq, rfl⟩
  | appendAbort txnId =>
    obtain ⟨txn, log, lsn, active, -, appended, rfl⟩ := step_appendAbort stepped
    obtain ⟨room, log_eq⟩ := buf appended
    exact ⟨{ lsn := s.log.nextLsn % 2 ^ 64, type := .kAbort, txnId := txnId }, plain .kAbort active, rfl, rfl, room,
      log_eq, rfl⟩
  | _ => cases appends

theorem nextLsn_quiet (stepped : s.step event = some s') (silent : event.isAppend = false) :
    s'.log.nextLsn = s.log.nextLsn := by
  cases leaves : event.leavesLog with
  | true => rw [log_of_leaves leaves stepped]
  | false =>
    cases event with
    | flushBegin txnId =>
      obtain ⟨txn, lsn, -, -, -, -, rfl⟩ := step_flushBegin stepped
      rfl
    | fsync txnId covered =>
      obtain ⟨flusher, -, -, -, -, rfl⟩ := step_fsync stepped
      rfl
    | flushEnd txnId =>
      obtain ⟨flusher, -, -, -, rfl⟩ := step_flushEnd stepped
      rfl
    | flushReturn txnId =>
      obtain ⟨txn, lsn, -, -, -, rfl⟩ := step_flushReturn stepped
      rfl
    | appendBegin | appendUpdate | appendCommit | appendAbort => cases silent
    | _ => cases leaves

theorem logEntry_quiet (silent : event.isAppend = false) : event.logEntry = none := by
  cases event <;> simp only [Event.isAppend, Bool.true_eq_false] at silent <;> rfl

end Engine

namespace FaultyEngine

open Engine

variable {init : PageKey → PageImage} {events : List FaultyEvent} {event : Event} {s s' : FaultyEngine} {txnId : Nat}
  {records : List LogRecord}

structure LogTrace (events : List FaultyEvent) (s : FaultyEngine) (records : List LogRecord) (rest : Bytes) : Prop where
  content : s.engine.log.file.content = encodeAll records ++ rest
  canonical : ∀ record ∈ records, record.Canonical
  entries : records.map LogRecord.entry <+: logEntries (history events)
  torn : ∀ offset, s.tear = some offset → offset = goodLength records
  whole : s.tear = none → rest = [] ∧ records.map LogRecord.entry = logEntries (history events) ∧
    s.engine.log.nextLsn ≤ records.length + (failed events).length + 1 ∧ Forced records (history events) s.engine

structure Doomed (events : List Event) (s : Engine) (txnId : Nat) : Prop where
  born : txnId < s.nextTxnId
  unreleased : txnId ∉ released events
  aborting : ∀ txn, s.activeTxns txnId = some txn → txn.phase.aborting = true
  uncommitted : txnId ∉ commits (logEntries events)
  begun : .other txnId ∈ logEntries events

def remaining (events : List FaultyEvent) : List (LogEntry Nat PageKey PageImage) :=
  forget (fun txnId => txnId ∈ failed events) (logEntries (history events))

structure Traced (init : PageKey → PageImage) (events : List FaultyEvent) (s : FaultyEngine) : Prop where
  serial : Serial init (history events) s.engine
  ids : s.engine.nextTxnId < 2 ^ 64
  fits : ∀ objectId n, s.engine.numPages objectId = some n → objectId < 2 ^ 32 ∧ n < 2 ^ 32
  doomed : ∀ txnId ∈ failed events, Doomed (history events) s.engine txnId
  distinct : (failed events).Nodup
  pages : ∀ txnId key, Updated (logEntries (history events)) txnId key →
    ∃ n, s.engine.numPages key.objectId = some n ∧ key.pageId < n
  view : LogView (remaining events) (history events) s.engine
  mixing : Mixing init (history events) s.engine
  size : s.engine.log.file.content.length ≤ maxFileSize
  log : ∃ records rest, LogTrace events s records rest

theorem fits_grow {engine engine' : Engine}
    (fits : ∀ objectId n, engine.numPages objectId = some n → objectId < 2 ^ 32 ∧ n < 2 ^ 32)
    (sizes : ∀ objectId, Grows (engine.numPages objectId) (engine'.numPages objectId)) (objectId n : Nat)
    (size : engine'.numPages objectId = some n) : objectId < 2 ^ 32 ∧ n < 2 ^ 32 := by
  rcases sizes objectId with same | ⟨m, before, room, after⟩
  · exact fits objectId n (same.symm.trans size)
  · cases after.symm.trans size
    exact ⟨(fits objectId m before).1, room⟩

theorem page_grow {engine engine' : Engine} {key : PageKey}
    (sizes : ∀ objectId, Grows (engine.numPages objectId) (engine'.numPages objectId))
    (page : ∃ n, engine.numPages key.objectId = some n ∧ key.pageId < n) :
    ∃ n, engine'.numPages key.objectId = some n ∧ key.pageId < n := by
  obtain ⟨n, size, within⟩ := page
  rcases sizes key.objectId with same | ⟨m, before, -, after⟩
  · exact ⟨n, same.trans size, within⟩
  · cases size.symm.trans before
    exact ⟨n + 1, after, Nat.lt_succ_of_lt within⟩

theorem encodeAll_snoc (records : List LogRecord) (record : LogRecord) :
    encodeAll (records ++ [record]) = encodeAll records ++ record.encode := by
  simp [encodeAll]

theorem lsn_small {gone : List Nat} {lsn : Nat} (size : goodLength records ≤ maxFileSize) (distinct : gone.Nodup)
    (begun : ∀ txnId ∈ gone, .other txnId ∈ records.map LogRecord.entry)
    (count : lsn ≤ records.length + gone.length + 1) : lsn < 2 ^ 64 := by
  have injective : Function.Injective (LogEntry.other : Nat → LogEntry Nat PageKey PageImage) := by
    intro first second same
    cases same
    rfl
  have fewer : gone.length ≤ records.length := by
    have within : gone.map LogEntry.other ⊆ records.map LogRecord.entry := by
      intro entry member
      obtain ⟨txnId, isGone, rfl⟩ := List.mem_map.mp member
      exact begun txnId isGone
    simpa using ((distinct.map injective).subperm within).length_le
  have many := length_le_goodLength records
  rw [maxFileSize] at size
  omega

theorem unfailed_of_logging (traced : Traced init events s) {next : Engine} (stepped : s.engine.step event = some next)
    {other : Nat} (isFailed : other ∈ failed events) :
    (∀ key image, event ≠ .appendUpdate other key image) ∧ event ≠ .appendCommit other := by
  have aborting := (traced.doomed other isFailed).aborting
  constructor
  · rintro key image rfl
    obtain ⟨txn, pending, pools, log, lsn, active, phase, -⟩ := step_appendUpdate stepped
    have impossible := aborting txn active
    simp [phase, Phase.aborting] at impossible
  · rintro rfl
    obtain ⟨txn, log, lsn, active, phase, -⟩ := step_appendCommit stepped
    have impossible := aborting txn active
    simp [phase, Phase.aborting] at impossible

theorem doomed_ok (traced : Traced init events s) {next : Engine} (stepped : s.engine.step event = some next)
    (isFailed : txnId ∈ failed events) : Doomed (history events ++ [event]) next txnId := by
  have moved := moved traced.serial.wellFormed traced.serial.born stepped
  obtain ⟨born, unreleased, aborting, uncommitted, begun⟩ := traced.doomed txnId isFailed
  refine ⟨born.trans_le moved.born, fun done => ?_, fun txn active => ?_, fun committed => ?_,
    (logEntries_grow _ _).subset begun⟩
  · rcases mem_released_snoc.mp done with already | rfl
    · exact unreleased already
    · obtain ⟨txn, active, phase, -⟩ := step_commitRelease stepped
      have impossible := aborting txn active
      simp [phase, Phase.aborting] at impossible
  · by_cases own : txnId = event.txnId
    · subst own
      cases before : s.engine.activeTxns event.txnId with
      | none =>
        rcases moved.revived before with gone | isNew
        · rw [gone] at active
          cases active
        · exact absurd born (by simp [isNew])
      | some txn₀ => exact (moved.aborting txn₀ before (aborting txn₀ before)).2 txn active
    · exact aborting txn (by rw [← moved.others txnId own, active])
  · rcases mem_logEntries_snoc.mp (mem_commits.mp committed) with before | logs
    · exact uncommitted (mem_commits.mpr before)
    · exact (unfailed_of_logging traced stepped isFailed).2 (logEntry_commit logs)

theorem remaining_ok (traced : Traced init events s) {next : Engine} (stepped : s.engine.step event = some next) :
    remaining (events ++ [.ok event]) = remaining events ++ event.logEntry.toList := by
  rw [remaining, failed_ok, history_ok, logEntries_snoc, forget_append]
  congr 1
  cases logs : event.logEntry with
  | none => rfl
  | some entry =>
    cases entry with
    | update other key image =>
      have unfailed : other ∉ failed events := fun isFailed =>
        (unfailed_of_logging traced stepped isFailed).1 key image (logEntry_update logs)
      rw [Option.toList_some, forget_update]
      simp [unfailed]
    | commit other => rfl
    | other other => rfl

theorem logEntries_history_grow (events : List FaultyEvent) (event : Event) :
    logEntries (history events) <+: logEntries (history (events ++ [.ok event])) := by
  rw [history_ok]
  exact logEntries_grow _ _

theorem LogTrace.content_length {rest : Bytes} (trace : LogTrace events s records rest) (untorn : s.tear = none) :
    s.engine.log.file.content.length = goodLength records := by
  rw [trace.content, (trace.whole untorn).1, List.append_nil, encodeAll_length]

theorem logTrace_quiet {rest : Bytes} (traced : Traced init events s) (trace : LogTrace events s records rest)
    {next : Engine} (stepped : s.engine.step event = some next) (silent : event.isAppend = false) :
    LogTrace (events ++ [.ok event]) { s with engine := next } records rest := by
  have moved := moved traced.serial.wellFormed traced.serial.born stepped
  refine ⟨(moved.content silent).trans trace.content, trace.canonical,
    trace.entries.trans (logEntries_history_grow events event), trace.torn, fun untorn => ?_⟩
  obtain ⟨noRest, all, count, forced⟩ := trace.whole untorn
  have whole := trace.content_length untorn
  have small : s.engine.log.nextLsn < 2 ^ 64 :=
    lsn_small (whole ▸ traced.size) traced.distinct (fun other isFailed => all ▸ (traced.doomed other isFailed).begun)
      count
  refine ⟨noRest, by rw [history_ok, logEntries_none (logEntry_quiet silent)]; exact all, ?_, ?_⟩
  · rw [failed_ok, nextLsn_quiet stepped silent]
    exact count
  · rw [history_ok]
    exact forced.quiet traced.serial.wellFormed traced.serial.born stepped silent whole small

theorem logTrace_appends {rest : Bytes} (traced : Traced init events s) (trace : LogTrace events s records rest)
    {next : Engine} (stepped : s.engine.step event = some next) (appends : event.isAppend = true) :
    ∃ records rest, LogTrace (events ++ [.ok event]) { s with engine := next } records rest := by
  have moved := moved traced.serial.wellFormed traced.serial.born stepped
  have grown := logEntries_history_grow events event
  obtain ⟨record, canonical, logs, numbered, room, log_eq, flusher⟩ :=
    appended_record traced.serial traced.ids traced.fits stepped appends
  by_cases untorn : s.tear = none
  · obtain ⟨noRest, all, count, forced⟩ := trace.whole untorn
    have all' : (records ++ [record]).map LogRecord.entry = logEntries (history (events ++ [.ok event])) := by
      rw [history_ok, logEntries_snoc, logs, List.map_append, all]
      rfl
    have content' : next.log.file.content = encodeAll (records ++ [record]) := by
      rw [log_eq, encodeAll_snoc, trace.content, noRest, List.append_nil]
    have counted : s.engine.log.nextLsn + 1 ≤ (records ++ [record]).length + (failed events).length + 1 := by
      rw [List.length_append, List.length_singleton]
      omega
    have small : s.engine.log.nextLsn + 1 < 2 ^ 64 := by
      refine lsn_small ?_ traced.distinct (fun other isFailed => ?_) counted
      · rw [← encodeAll_length, encodeAll_snoc, List.length_append]
        rwa [trace.content, noRest, List.append_nil] at room
      · rw [all']
        exact grown.subset (traced.doomed other isFailed).begun
    have lsn_eq : record.lsn = s.engine.log.nextLsn := by
      rw [numbered, Nat.mod_eq_of_lt (by omega)]
    have nextLsn : next.log.nextLsn = s.engine.log.nextLsn + 1 := by
      rw [log_eq]
      exact wrapLsn_of_lt small
    refine ⟨records ++ [record], [], by rw [content', List.append_nil], fun other member => ?_, all' ▸ List.prefix_rfl,
      by simp [untorn], fun _ => ⟨rfl, all', by rw [failed_ok, nextLsn]; exact counted, ?_⟩⟩
    · rcases List.mem_append.mp member with before | this
      · exact trace.canonical other before
      · rwa [List.mem_singleton.mp this]
    · rw [history_ok]
      refine forced.appends nextLsn (by rw [log_eq]) (by rw [log_eq]) flusher (.inr ⟨record, rfl, lsn_eq⟩) moved.others
        (Forced.own_appended stepped appends logs lsn_eq _) ?_
      rintro other rfl
      cases appends
  · -- behind the first incomplete record it does not matter what follows
    refine ⟨records, rest ++ record.encode, ?_, trace.canonical, trace.entries.trans grown, trace.torn,
      fun none => absurd none untorn⟩
    rw [log_eq, trace.content, List.append_assoc]

theorem traced_ok (traced : Traced init events s) {next : Engine} (stepped : s.engine.step event = some next) :
    Traced init (events ++ [.ok event]) { s with engine := next } := by
  obtain ⟨records, rest, trace⟩ := traced.log
  have moved := moved traced.serial.wellFormed traced.serial.born stepped
  refine {
    serial := by rw [history_ok]; exact traced.serial.step stepped
    ids := moved.ids traced.ids
    fits := fits_grow traced.fits moved.sizes
    doomed := fun txnId member => by rw [history_ok]; exact doomed_ok traced stepped (failed_ok ▸ member)
    distinct := by rw [failed_ok]; exact traced.distinct
    pages := ?_
    view := by
      rw [remaining_ok traced stepped, history_ok]
      exact traced.view.step traced.serial stepped
    mixing := by rw [history_ok]; exact traced.mixing.step traced.serial stepped
    size := ?_, log := ?_ }
  · rintro other key ⟨image, member⟩
    rw [history_ok] at member
    rcases mem_logEntries_snoc.mp member with before | logs
    · exact page_grow moved.sizes (traced.pages other key ⟨image, before⟩)
    · have here := logEntry_update logs
      subst here
      obtain ⟨txn, pending, pools, log, lsn, -, -, -, -, -, -, -, within⟩ := step_appendUpdate stepped
      exact page_grow moved.sizes (within traced.serial.wellFormed)
  · cases appends : event.isAppend with
    | false =>
      rw [moved.content appends]
      exact traced.size
    | true =>
      obtain ⟨record, -, -, -, room, log_eq, -⟩ :=
        appended_record traced.serial traced.ids traced.fits stepped appends
      simpa only [log_eq, List.length_append] using room
  · cases appends : event.isAppend with
    | false => exact ⟨records, rest, logTrace_quiet traced trace stepped appends⟩
    | true => exact logTrace_appends traced trace stepped appends

theorem remaining_commitFails {failure : IoFailure} :
    remaining (events ++ [.commitFails txnId failure]) = forget (fun other => other = txnId) (remaining events) := by
  rw [remaining, remaining, forget_forget, failed_commitFails, history_commitFails, logEntries_none rfl]
  congr 1
  funext other
  simp [List.mem_append, Bool.decide_or]

section CommitFails

variable {next : Engine} {txn : Transaction} {pending : Finset PageKey} (traced : Traced init events s)
  (active : s.engine.activeTxns txnId = some txn) (phase : txn.phase = .logging pending)
  (after : next.activeTxns =
    Function.update s.engine.activeTxns txnId (some { txn with phase := .discarding txn.dirtiedPages }))

include traced active phase in
theorem logging_uncommitted : txnId ∉ commits (logEntries (history events)) := by
  have mine := traced.view.active txnId txn active
  simp only [TxnShown, phase] at mine
  have unlogged := mine.1
  rwa [remaining, commits_forget] at unlogged

include traced active phase in
theorem logging_begun : .other txnId ∈ logEntries (history events) :=
  List.mem_of_mem_filter (traced.view.begun txnId txn active (by simp [phase]))

include traced active phase in
theorem distinct_commitFails : (failed events ++ [txnId]).Nodup := by
  rw [List.nodup_append]
  refine ⟨traced.distinct, List.nodup_singleton _, fun other member last isLast => ?_⟩
  rw [List.mem_singleton.mp isLast]
  rintro rfl
  have aborting := (traced.doomed other member).aborting txn active
  simp [phase, Phase.aborting] at aborting

include traced active phase after in
theorem doomed_commitFails (nextTxnId : next.nextTxnId = s.engine.nextTxnId) {other : Nat}
    (isFailed : other ∈ failed events ++ [txnId]) : Doomed (history events ++ [.abort txnId]) next other := by
  have isActive : s.engine.activeTxns txnId ≠ none := by simp [active]
  have silent : logEntries (history events ++ [.abort txnId]) = logEntries (history events) := logEntries_none rfl
  have same : released (history events ++ [.abort txnId]) = released (history events) := released_other (by simp)
  by_cases own : other = txnId
  · subst own
    refine ⟨by rw [nextTxnId]; exact traced.serial.born other isActive, fun done => ?_, fun found present => ?_,
      silent ▸ logging_uncommitted traced active phase, silent ▸ logging_begun traced active phase⟩
    · exact isActive (traced.serial.ended other (same ▸ done)).2
    · rw [after, Function.update_self] at present
      cases present
      rfl
  · obtain ⟨born, unreleased, aborting, undone, started⟩ := traced.doomed other (by simpa [own] using isFailed)
    refine ⟨by rwa [nextTxnId], same ▸ unreleased, fun found present => aborting found ?_, silent ▸ undone,
      silent ▸ started⟩
    rwa [after, Function.update_of_ne own] at present

include traced after in
theorem mixing_commitFails (loads : Loads s.engine next) : Mixing init (history events ++ [.abort txnId]) next := by
  intro other found pending' key present flushing dirtied
  have own : other ≠ txnId := by
    rintro rfl
    rw [after, Function.update_self] at present
    cases present
    cases flushing
  rw [after, Function.update_of_ne own] at present
  have store : committedStore init (history events ++ [.abort txnId]) = committedStore init (history events) := by
    rw [committedStore, traced.serial.serialHistory_unreleased (by simp) (.inl rfl)]
    rfl
  rw [store, accessesOf_none rfl, congrFun loads.onDisk key]
  exact traced.mixing other found pending' key present flushing dirtied

theorem tearAfter_eq_none {failure : IoFailure} :
    s.tearAfter failure = none ↔ s.tear = none ∧ failure.tears = false := by
  rw [tearAfter]
  cases s.tear <;> simp

theorem tearAfter_eq_some {failure : IoFailure} {offset : Nat} (torn : s.tearAfter failure = some offset) :
    s.tear = some offset ∨ s.tear = none ∧ offset = s.engine.log.file.content.length := by
  rw [tearAfter] at torn
  cases before : s.tear with
  | some earlier =>
    rw [before] at torn
    exact .inl torn
  | none =>
    simp only [before, Option.ite_none_right_eq_some, Option.some.injEq] at torn
    exact .inr ⟨rfl, torn.2.symm⟩

include traced active phase after in
theorem logTrace_commitFails {rest bytes : Bytes} {failure : IoFailure} (trace : LogTrace events s records rest)
    (flusher : next.flusher = s.engine.flusher)
    (log_eq : next.log = { s.engine.log with
      file := { s.engine.log.file with content := s.engine.log.file.content ++ bytes }
      nextLsn := wrapLsn (s.engine.log.nextLsn + 1) })
    (whole : failure.tears = false → bytes = []) :
    LogTrace (events ++ [.commitFails txnId failure]) { engine := next, tear := s.tearAfter failure } records
      (rest ++ bytes) := by
  have silent : logEntries (history events ++ [.abort txnId]) = logEntries (history events) := logEntries_none rfl
  refine ⟨by rw [log_eq, trace.content, List.append_assoc], trace.canonical,
    by rw [history_commitFails, silent]; exact trace.entries, fun offset torn => ?_, fun untorn => ?_⟩
  · rcases tearAfter_eq_some torn with earlier | ⟨before, rfl⟩
    · exact trace.torn offset earlier
    · exact trace.content_length before
  · obtain ⟨before, complete⟩ := tearAfter_eq_none.mp untorn
    obtain ⟨noRest, all, count, forced⟩ := trace.whole before
    have counted : s.engine.log.nextLsn + 1 ≤ records.length + (failed events ++ [txnId]).length + 1 := by
      rw [List.length_append, List.length_singleton]
      omega
    have small : s.engine.log.nextLsn + 1 < 2 ^ 64 := by
      refine lsn_small (trace.content_length before ▸ traced.size) (distinct_commitFails traced active phase)
        (fun other member => all ▸ ?_) counted
      rcases List.mem_append.mp member with earlier | this
      · exact (traced.doomed other earlier).begun
      · rw [List.mem_singleton.mp this]
        exact logging_begun traced active phase
    have nextLsn : next.log.nextLsn = s.engine.log.nextLsn + 1 := by
      rw [log_eq]
      exact wrapLsn_of_lt small
    refine ⟨by rw [noRest, whole complete, List.append_nil], by rw [history_commitFails, silent]; exact all,
      by rw [nextLsn, failed_commitFails]; exact counted, ?_⟩
    rw [history_commitFails]
    have appended : Forced (records ++ []) (history events ++ [.abort txnId]) next := by
      refine forced.appends nextLsn (by rw [log_eq]) (by rw [log_eq]) flusher (.inl rfl)
        (fun other different => after ▸ Function.update_of_ne different ..) (fun found present => ?_) (by simp)
      rw [after] at present
      cases present.symm.trans (Function.update_self ..)
      trivial
    rwa [List.append_nil] at appended

end CommitFails

theorem traced_commitFails (traced : Traced init events s) {failure : IoFailure}
    (early : failure.beforeCommitRecord = true) (stepped : s.step (.commitFails txnId failure) = some s') :
    Traced init (events ++ [.commitFails txnId failure]) s' := by
  simp only [step, Option.map_eq_some_iff] at stepped
  obtain ⟨next, unwound, rfl⟩ := stepped
  obtain ⟨txn, pending, bytes, active, phase, after, nextTxnId, locks, flusher, loads, room, log_eq, whole⟩ :=
    failCommit_append early unwound
  obtain ⟨records, rest, trace⟩ := traced.log
  refine {
    serial := ?_
    ids := by simpa only [nextTxnId] using traced.ids
    fits := fits_grow traced.fits loads.sizes
    doomed := fun other member => ?_
    distinct := by rw [failed_commitFails]; exact distinct_commitFails traced active phase
    pages := fun other key updated => ?_
    view := by
      rw [remaining_commitFails, history_commitFails]
      exact traced.view.forgets active phase after
    mixing := by rw [history_commitFails]; exact mixing_commitFails traced after loads
    size := by simpa only [log_eq, List.length_append] using room
    log := ⟨records, rest ++ bytes, logTrace_commitFails traced active phase after trace flusher log_eq whole⟩ }
  · rw [history_commitFails]
    refine traced.serial.proceeds (.abort txnId) (.discarding txn.dirtiedPages) active rfl (by simp) after nextTxnId locks
      loads.wellFormed (Finset.Subset.refl _) (fun key _ => ⟨congrFun loads.content key, congrFun loads.onDisk key,
        loads.unflushed key⟩) fun committed own key member state => ?_
    rw [phase] at state
    exact ⟨(congrFun loads.onDisk key).trans state.2.1, fun gone => absurd member gone⟩
  · rw [failed_commitFails] at member
    rw [history_commitFails]
    exact doomed_commitFails traced active phase after nextTxnId member
  · rw [history_commitFails, logEntries_none rfl] at updated
    exact page_grow loads.sizes (traced.pages other key updated)

theorem traced_start (data : DataFiles) :
    Traced (fileImage data.file) [] (start (LogManager.open []) data.file) where
  serial := by
    have serial := Serial.start (LogManager.open []) data.file
    rwa [onDisk_start] at serial
  ids := by simp [start, Engine.start]
  fits objectId n size := by
    simp only [start, numPages, Engine.start, Option.map_map, Option.map_eq_some_iff] at size
    obtain ⟨disk, found, rfl⟩ := size
    exact data.fits objectId disk found
  doomed := by simp [failed]
  distinct := List.nodup_nil
  pages _ _ updated := by
    obtain ⟨image, member⟩ := updated
    cases member
  view := LogView.start _ _
  mixing := Mixing.start _ _
  size := Nat.zero_le _
  log := ⟨[], [], rfl, by simp, List.prefix_rfl, by simp [start],
    fun _ => ⟨rfl, rfl, Nat.le_refl _, Forced.start rfl Nat.one_pos⟩⟩

/-- Every failure of the run comes before the Commit record of its transaction is complete. -/
def FailsEarly (events : List FaultyEvent) : Prop :=
  ∀ txnId failure, .commitFails txnId failure ∈ events → failure.beforeCommitRecord = true

theorem traced_reached {data : DataFiles} (early : FailsEarly events)
    (reached : run step (start (LogManager.open []) data.file) events = some s) :
    Traced (fileImage data.file) events s := by
  refine run_induction (fun events' s => events' <+: events → Traced (fileImage data.file) events' s)
    (fun _ => traced_start data) ?_ reached (List.prefix_refl _)
  intro events' s event s' before ih stepped isEarlier
  have traced := ih ((List.prefix_append _ _).trans isEarlier)
  cases event with
  | ok event =>
    simp only [step, Option.map_eq_some_iff] at stepped
    obtain ⟨next, stepped, rfl⟩ := stepped
    exact traced_ok traced stepped
  | commitFails txnId failure =>
    exact traced_commitFails traced (early txnId failure (isEarlier.subset (by simp))) stepped

/-- The scan does not get past the first incomplete record: whatever was appended behind it, the bytes from there on
do not make a record. -/
def ScanStopsAtTear (s : FaultyEngine) (n : Nat) : Prop :=
  ∀ offset, s.tear = some offset → parseRecord ((s.engine.log.file.content.take n).drop offset) = none

/-- The records that the next open finds when `n` bytes of the log file are left. -/
def found (s : FaultyEngine) (n : Nat) : List LogRecord :=
  (LogManager.open (s.engine.log.file.content.take n)).recordsOnOpen

theorem found_eq {rest : Bytes} (trace : LogTrace events s records rest) {n : Nat} (stops : s.ScanStopsAtTear n) :
    s.found n = within LogRecord.size records n := by
  change scanRecords _ = _
  have length := encodeAll_length records
  rw [trace.content]
  by_cases cut : n ≤ (encodeAll records).length
  · rw [List.take_append_of_le_length cut, scanRecords_cut trace.canonical]
  · have split : (encodeAll records ++ rest).take n = encodeAll records ++ rest.take (n - (encodeAll records).length) := by
      rw [List.take_append, List.take_of_length_le (by omega)]
    have unparsed : parseRecord (rest.take (n - (encodeAll records).length)) = none := by
      cases tear : s.tear with
      | none =>
        rw [(trace.whole tear).1, List.take_nil]
        rfl
      | some offset =>
        have here := stops offset tear
        rwa [trace.content, split, trace.torn offset tear, ← length, List.drop_left] at here
    have all : scanRecords (encodeAll records ++ rest.take (n - (encodeAll records).length)) = records := by
      refine scan_stops (fun record rest canonical => parseRecord_encode record canonical rest) LogRecord.encode_length
        trace.canonical unparsed _ ?_
      have many := length_le_goodLength records
      rw [List.length_append]
      change records.length ≤ (encodeAll records).length + _
      omega
    rw [split, all]
    refine (within_all ?_).symm
    change goodLength records ≤ n
    omega

/-- The transactions whose Commit record recovery finds, in the order of these records. -/
def replayed (s : FaultyEngine) (n : Nat) : List Nat := commits ((s.found n).map LogRecord.entry)

-- The transactions that the pages show after recovery: those that have released their locks without their Commit
-- record being found, as a torn log can have it, in the order of the releases, and behind them those that are
-- replayed.
def survivors (events : List FaultyEvent) (s : FaultyEngine) (n : Nat) : List Nat :=
  (released (history events)).filter (fun txnId => txnId ∉ s.replayed n) ++ s.replayed n

-- What these transactions leave, one after another.
def survivingStore (init : PageKey → PageImage) (events : List FaultyEvent) (s : FaultyEngine) (n : Nat) :
    PageKey → PageImage :=
  applyWrites init ((survivors events s n).flatMap fun txnId => writesOf (accessesOf txnId (history events)))

-- The transaction was writing this page to the data file, and its Commit record is not found.
structure CutShort (events : List FaultyEvent) (s : FaultyEngine) (n txnId : Nat) (key : PageKey) : Prop where
  unfailed : txnId ∉ failed events
  unreplayed : txnId ∉ s.replayed n
  flushing : ∃ txn pending, s.engine.activeTxns txnId = some txn ∧ txn.phase = .flushing pending ∧
    key ∈ txn.dirtiedPages

/-- Nothing of the transaction is to be seen, neither in the running process nor after a crash that leaves `n` bytes of
the log. -/
structure RolledBack (init : PageKey → PageImage) (events : List FaultyEvent) (s : FaultyEngine) (n txnId : Nat) :
    Prop where
  unreleased : txnId ∉ released (history events)
  running : ∀ key, (∀ other, s.engine.activeTxns other ≠ none → ¬ s.engine.locks.HoldsExclusive other key) →
    s.engine.Settled init (history events) key
  unreplayed : ∀ other ∈ failed events, other ∉ survivors events s n
  recovered : ∃ recovered, runRecovery (s.found n) s.engine.files = some recovered ∧
    (∀ key, fileImage recovered key = survivingStore init events s n key ∨ ∃ other, CutShort events s n other key ∧
      (fileImage recovered key).MixedOf (survivingStore init events s n key)
        (applyWrites init (writesOf (accessesOf other (history events))) key)) ∧
    -- as for a run without failures, if none of them has left part of a record
    (s.tear = none → s.engine.log.file.coveredEnd ≤ n → (∀ other ∈ released (history events), other ∈ s.replayed n) ∧
      ∀ key, fileImage recovered key = applyWrites init
        ((s.replayed n).flatMap fun other => writesOf (accessesOf other (history events))) key)

theorem entries_found {rest : Bytes} (trace : LogTrace events s records rest) {n : Nat} (stops : s.ScanStopsAtTear n) :
    (s.found n).map LogRecord.entry <+: logEntries (history events) := by
  rw [found_eq trace stops]
  exact ((within_isPrefix LogRecord.size records n).map _).trans trace.entries

theorem not_replayed (traced : Traced init events s) {n : Nat} (stops : s.ScanStopsAtTear n)
    (isFailed : txnId ∈ failed events) : txnId ∉ s.replayed n := by
  obtain ⟨records, rest, trace⟩ := traced.log
  intro committed
  have member := mem_commits.mpr ((entries_found trace stops).subset (mem_commits.mp committed))
  exact (traced.doomed txnId isFailed).uncommitted member

theorem recovers (traced : Traced init events s) {n : Nat} (stops : s.ScanStopsAtTear n) :
    ∃ recovered, runRecovery (s.found n) s.engine.files = some recovered ∧ fileImage recovered =
      applyWrites s.engine.onDisk
        ((s.replayed n).flatMap fun other => writesOf (accessesOf other (history events))) := by
  obtain ⟨records, rest, trace⟩ := traced.log
  have isPrefix := entries_found trace stops
  have present : ∀ record ∈ s.found n, record.type = .kUpdate → HasPage s.engine.files record.key := by
    intro record member isUpdate
    have logged : Updated (logEntries (history events)) record.txnId record.key :=
      ⟨record.pageImage, isPrefix.subset (List.mem_map.mpr ⟨record, member, by simp [LogRecord.entry, isUpdate]; rfl⟩)⟩
    obtain ⟨m, size, within⟩ := traced.pages _ _ logged
    simp only [numPages, Option.map_eq_some_iff] at size
    obtain ⟨pool, known, rfl⟩ := size
    exact ⟨pool.disk, by simp only [files, known, Option.map_some], within⟩
  obtain ⟨recovered, ran, -, image⟩ := runRecovery_spec _ present
  refine ⟨recovered, ran, ?_⟩
  have kept : forget (fun other => other ∈ failed events) ((s.found n).map LogRecord.entry) <+: remaining events := by
    obtain ⟨more, whole⟩ := isPrefix
    exact ⟨forget (fun other => other ∈ failed events) more, by rw [remaining, ← whole, forget_append]⟩
  have uncommitted : ∀ other, decide (other ∈ failed events) = true → other ∉ s.replayed n :=
    fun other isFailed => not_replayed traced stops (of_decide_eq_true isFailed)
  rw [image, fileImage_files, ← redo_forget uncommitted, redo_of_faithful traced.view.isolated kept
    (fun other committed key => traced.view.updated_of_committed traced.serial committed key) traced.view.faithful,
    commits_forget]
  rfl

theorem survivingStore_eq (n : Nat) (key : PageKey) :
    survivingStore init events s n key = applyWrites (committedStore init (history events))
      ((s.replayed n).flatMap fun other => writesOf (accessesOf other (history events))) key := by
  rw [survivingStore, survivors, List.flatMap_append, applyWrites_append]
  refine applyWrites_congr _ _ _ _ ?_
  by_cases written : key ∈ ((s.replayed n).flatMap fun other => writesOf (accessesOf other (history events))).map Prod.fst
  · exact .inl written
  · refine .inr ?_
    rw [committedStore, serialHistory, writesOf_flatMap]
    refine applyWrites_filter _ _ fun other _ isReplayed here => written ?_
    obtain ⟨write, member, rfl⟩ := List.mem_map.mp here
    exact List.mem_map.mpr ⟨write, List.mem_flatMap.mpr ⟨other, by simpa using isReplayed, member⟩, rfl⟩

theorem flushing_of_changed (traced : Traced init events s) {key : PageKey}
    (changed : s.engine.onDisk key ≠ committedStore init (history events) key) :
    ∃ other txn pending, s.engine.activeTxns other = some txn ∧ txn.phase = .flushing pending ∧
      key ∈ txn.dirtiedPages := by
  by_contra none
  push Not at none
  refine changed ?_
  by_cases clean : ∀ other txn, s.engine.activeTxns other = some txn → key ∉ txn.dirtiedPages
  · exact (traced.serial.clean key clean).2
  · push Not at clean
    obtain ⟨other, txn, active, dirtied⟩ := clean
    have state := traced.serial.dirty other txn active key dirtied
    cases phase : txn.phase with
    | flushing pending => exact absurd dirtied (none other txn pending active phase)
    | discarding pending =>
      rw [phase] at state
      exact state.1
    | discarded =>
      rw [phase] at state
      exact state.1
    | _ =>
      rw [phase] at state
      exact state.2.1

theorem replayed_of_within {rest : Bytes} (trace : LogTrace events s records rest) {n : Nat}
    (stops : s.ScanStopsAtTear n) (untorn : s.tear = none) (behind : s.engine.log.file.coveredEnd ≤ n)
    (committed : CommitWithin records s.engine.log.file.synced txnId) : txnId ∈ s.replayed n := by
  obtain ⟨before, record, isPrefix, entry, fits⟩ := committed
  have covered : goodLength (before ++ [record]) ≤ s.engine.log.file.coveredEnd := by
    have scanned := scanRecords_cut trace.canonical s.engine.log.file.synced
    rw [WalFile.coveredEnd, trace.content, (trace.whole untorn).1, List.append_nil, scanned]
    obtain ⟨more, same⟩ := prefix_within isPrefix fits
    rw [← same, goodLength_append (before ++ [record])]
    exact Nat.le_add_right _ _
  have kept : before ++ [record] <+: s.found n := by
    rw [found_eq trace stops]
    exact prefix_within isPrefix (covered.trans behind)
  refine mem_commits.mpr (List.mem_map.mpr ⟨record, kept.subset (by simp), entry⟩)

/-- Abort has returned for a transaction whose Commit failed. -/
def FailedAndAborted (events : List FaultyEvent) (s : FaultyEngine) (txnId : Nat) : Prop :=
  txnId ∈ failed events ∧ s.engine.activeTxns txnId = none

theorem failed_commit_rolled_back (data : DataFiles) (events : List FaultyEvent) (s : FaultyEngine) (n txnId : Nat)
    (reached : run step (start (LogManager.open []) data.file) events = some s)
    (aborted : FailedAndAborted events s txnId) (early : FailsEarly events) (stops : s.ScanStopsAtTear n) :
    RolledBack (fileImage data.file) events s n txnId := by
  have traced := traced_reached early reached
  obtain ⟨recovered, ran, image⟩ := recovers traced stops
  have pages : ∀ key, fileImage recovered key = survivingStore (fileImage data.file) events s n key ∨
      ∃ other, CutShort events s n other key ∧
        (fileImage recovered key).MixedOf (survivingStore (fileImage data.file) events s n key)
          (applyWrites (fileImage data.file) (writesOf (accessesOf other (history events))) key) := by
    intro key
    rw [image, survivingStore_eq]
    by_cases written : key ∈ ((s.replayed n).flatMap fun other => writesOf (accessesOf other (history events))).map Prod.fst
    · exact .inl (applyWrites_congr _ _ _ _ (.inl written))
    by_cases changed : s.engine.onDisk key = committedStore (fileImage data.file) (history events) key
    · exact .inl (applyWrites_congr _ _ _ _ (.inr changed))
    · obtain ⟨other, txn, pending, active, phase, dirtied⟩ := flushing_of_changed traced changed
      refine .inr ⟨other, ⟨fun isFailed => ?_, fun isReplayed => written ?_, txn, pending, active, phase, dirtied⟩, ?_⟩
      · have aborting := (traced.doomed other isFailed).aborting txn active
        simp [phase, Phase.aborting] at aborting
      · obtain ⟨write, member, same⟩ := List.mem_map.mp ((traced.serial.dirtied other txn active key).mp dirtied)
        exact List.mem_map.mpr ⟨write, List.mem_flatMap.mpr ⟨other, isReplayed, member⟩, same⟩
      · rw [applyWrites_unwritten _ _ _ written, applyWrites_unwritten _ _ _ written]
        exact traced.mixing other txn pending key active phase dirtied
  refine ⟨(traced.doomed txnId aborted.1).unreleased, fun key => traced.serial.settled, fun other isFailed survives => ?_,
    recovered, ran, pages, fun untorn behind => ?_⟩
  · rcases List.mem_append.mp survives with isReleased | isReplayed
    · exact (traced.doomed other isFailed).unreleased (List.mem_of_mem_filter isReleased)
    · exact not_replayed traced stops isFailed isReplayed
  · obtain ⟨records, rest, trace⟩ := traced.log
    have forced := (trace.whole untorn).2.2.2
    have returned : ∀ other ∈ released (history events), other ∈ s.replayed n := fun other done =>
      replayed_of_within trace stops untorn behind (forced.released other done)
    refine ⟨returned, fun key => ?_⟩
    have alone : survivors events s n = s.replayed n := by
      have nobody : (released (history events)).filter (fun other => other ∉ s.replayed n) = [] := by
        simpa [List.filter_eq_nil_iff] using returned
      rw [survivors, nobody, List.nil_append]
    rcases pages key with same | ⟨other, cut, -⟩
    · rw [same, survivingStore, alone]
    · obtain ⟨txn, pending, active, phase, -⟩ := cut.flushing
      have mine := forced.active other txn active
      simp only [TxnForced, phase] at mine
      exact absurd (replayed_of_within trace stops untorn behind mine) cut.unreplayed

def failingEvents (done : List Event) (failure : IoFailure) : List FaultyEvent :=
  (([.begin 1, .appendBegin 1, .allocate 1 ⟨0, 0⟩, .write 1 ⟨0, 0⟩ (.ofBytes [1]), .commit 1] : List Event) ++
    done).map .ok ++
    [.commitFails 1 failure, .ok (.discardPage 1 ⟨0, 0⟩), .ok (.appendAbort 1), .ok (.abortRelease 1)]

set_option maxRecDepth 100000 in
-- the Update record breaks off after 40 bytes, the Abort record comes behind it
theorem failed_commit_rolled_back_torn_update : ∃ s,
    run step (start (LogManager.open []) oneEmptyFile.file) (failingEvents [] (.appendUpdate ⟨0, 0⟩ 40)) = some s ∧
      s.tear = some 33 ∧
      RolledBack (fileImage oneEmptyFile.file) (failingEvents [] (.appendUpdate ⟨0, 0⟩ 40)) s 106 1 := by
  have ran : ((run step (start (LogManager.open []) oneEmptyFile.file)
      (failingEvents [] (.appendUpdate ⟨0, 0⟩ 40))).map fun s =>
        decide (s.tear = some 33) && ((s.engine.activeTxns 1).isNone &&
          (parseRecord ((s.engine.log.file.content.take 106).drop 33)).isNone)) = some true := by decide +kernel
  obtain ⟨s, reached, known⟩ := Option.map_eq_some_iff.mp ran
  simp only [Bool.and_eq_true, decide_eq_true_eq, Option.isNone_iff_eq_none] at known
  obtain ⟨tear, ended, unparsed⟩ := known
  refine ⟨s, reached, tear, failed_commit_rolled_back oneEmptyFile _ s 106 1 reached ⟨by decide, ended⟩ ?_ ?_⟩
  · intro txnId failure member
    simp only [failingEvents, List.append_nil, List.map_cons, List.map_nil, List.cons_append, List.nil_append,
      List.mem_cons, reduceCtorEq, FaultyEvent.commitFails.injEq, List.not_mem_nil, or_false, false_or] at member
    rw [member.2]
    rfl
  · intro offset isTorn
    cases tear.symm.trans isTorn
    exact unparsed

set_option maxRecDepth 100000 in
/-- The fsync fails: the Commit record stays in the log file, and the next open replays what Abort has taken back. -/
theorem failed_fsync_reappears : ¬ ∀ (data : DataFiles) events s n txnId,
    run step (start (LogManager.open []) data.file) events = some s → FailedAndAborted events s txnId →
      RolledBack (fileImage data.file) events s n txnId := by
  intro always
  let events := failingEvents [.appendUpdate 1 ⟨0, 0⟩ (.ofBytes [1]), .appendCommit 1, .flushBegin 1] .fsync
  have ran : ((run step (start (LogManager.open []) oneEmptyFile.file) events).map fun s =>
      (s.engine.activeTxns 1).isNone && decide (1 ∈ s.replayed 4228)) = some true := by decide +kernel
  obtain ⟨s, reached, known⟩ := Option.map_eq_some_iff.mp ran
  simp only [Bool.and_eq_true, Option.isNone_iff_eq_none, decide_eq_true_eq] at known
  obtain ⟨ended, isReplayed⟩ := known
  have unreplayed := (always oneEmptyFile events s 4228 1 reached ⟨by decide, ended⟩).unreplayed
  exact unreplayed 1 (by decide) (List.mem_append_right _ isReplayed)

end FaultyEngine

end FlintDB
