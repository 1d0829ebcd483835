import FlintDB.Txn.CrashAtomicity

set_option autoImplicit false

-- What the records in the log say about the transactions does not depend on which of them an fsync has covered. To
-- say so every state is compared with the one in which all that is written is fsynced. Nobody flushes there,
-- FlushThrough returns at once, and every other step is the same.

namespace FlintDB

open Lib

namespace LogManager

def forced (log : LogManager) : LogManager :=
  { log with file := log.file.fsync, durableLsn := log.lastLsn, flushInProgress := false }

theorem appendRecord_forced {log log' : LogManager} {type : LogRecordType} {txnId objectId pageId lsn : Nat}
    {payload : Bytes} (appended : log.appendRecord type txnId objectId pageId payload = some (log', lsn)) :
    ∃ next, log.forced.appendRecord type txnId objectId pageId payload = some (next, lsn) ∧
      next.forced = log'.forced := by
  obtain ⟨rfl, fits, rfl⟩ := appendRecord_some appended
  refine ⟨{ log.forced with
    file := { log.forced.file with
      content := log.file.content ++ recordBuf log.nextLsn type txnId objectId pageId payload }
    nextLsn := wrapLsn (log.nextLsn + 1) }, ?_, rfl⟩
  simp only [appendRecord, WalFile.write, forced, WalFile.fsync, fits, if_true]

end LogManager

namespace Engine

variable {old : List LogRecord} {init : PageKey → PageImage} {events : List Event} {event : Event} {s s' : Engine}
  {txnId : Nat} {txn : Transaction} {key : PageKey}

def withLog (s : Engine) (log : LogManager) (flusher : Option Flusher) : Engine :=
  { s with log := log, flusher := flusher }

def forced (s : Engine) : Engine := s.withLog s.log.forced none

theorem Serial.withLog (serial : Serial init events s) (log : LogManager) (flusher : Option Flusher) :
    Serial init events (s.withLog log flusher) :=
  ⟨serial.wellFormed, serial.consistent, serial.born, serial.holder, serial.ended, serial.unborn, serial.dirtied,
    serial.pending, serial.exclusive, serial.accessed, serial.reads, serial.clean, serial.dirty, serial.serial⟩

end Engine

def Event.leavesLog : Event → Bool
  | appendBegin _ | appendUpdate .. | appendCommit _ | appendAbort _ | flushBegin _ | fsync .. | flushEnd _
  | flushReturn _ => false
  | _ => true

def Event.isFlush : Event → Bool
  | flushBegin _ | fsync .. | flushEnd _ => true
  | _ => false

namespace Engine

variable {old : List LogRecord} {init : PageKey → PageImage} {events : List Event} {event : Event} {s s' : Engine}
  {txnId : Nat} {txn : Transaction} {key : PageKey}

theorem step_withLog (log : LogManager) (flusher : Option Flusher) (leaves : event.leavesLog = true)
    (stepped : s.step event = some s') : (s.withLog log flusher).step event = some (s'.withLog log flusher) := by
  cases event with
  | begin txnId =>
    obtain ⟨next, small, rfl⟩ := step_begin stepped
    exact if_pos ⟨next, small⟩
  | lock txnId key mode =>
    simp only [step, Option.bind_eq_bind, Option.bind_eq_some_iff, Option.ite_none_right_eq_some] at stepped ⊢
    obtain ⟨txn, active, running, answered⟩ := stepped
    refine ⟨txn, active, running, ?_⟩
    simp only [withLog]
    cases asked : s.locks.acquireLock txnId key mode <;> simp only [asked] at answered <;> cases answered <;> rfl
  | read txnId key image =>
    simp only [step, Option.bind_eq_bind, Option.bind_eq_some_iff, Option.ite_none_right_eq_some,
      Option.some.injEq] at stepped ⊢
    obtain ⟨txn, active, pool, found, fetched, read, may, rfl⟩ := stepped
    exact ⟨txn, active, pool, found, fetched, read, may, rfl⟩
  | write txnId key image =>
    simp only [step, Option.bind_eq_bind, Option.bind_eq_some_iff, Option.ite_none_right_eq_some,
      Option.some.injEq] at stepped ⊢
    obtain ⟨txn, active, pool, found, fetched, read, may, rfl⟩ := stepped
    exact ⟨txn, active, pool, found, fetched, read, may, rfl⟩
  | allocate txnId key =>
    simp only [step, Option.bind_eq_bind, Option.bind_eq_some_iff, Option.ite_none_right_eq_some] at stepped ⊢
    obtain ⟨txn, active, pool, found, may, answered⟩ := stepped
    refine ⟨txn, active, pool, found, may, ?_⟩
    simp only [withLog]
    cases asked : s.locks.acquireLock txnId key .kExclusive <;> simp only [asked] at answered <;> cases answered
    rfl
  | commit txnId =>
    simp only [step, Option.bind_eq_bind, Option.bind_eq_some_iff, Option.ite_none_right_eq_some,
      Option.some.injEq] at stepped ⊢
    obtain ⟨txn, active, running, rfl⟩ := stepped
    exact ⟨txn, active, running, rfl⟩
  | flushPage txnId key =>
    simp only [step, Option.bind_eq_bind, Option.bind_eq_some_iff] at stepped ⊢
    obtain ⟨txn, active, pool, found, next, flushed, moved⟩ := stepped
    refine ⟨txn, active, pool, found, next, flushed, ?_⟩
    split at moved
    · simp only [Option.ite_none_right_eq_some, Option.some.injEq] at moved ⊢
      obtain ⟨member, rfl⟩ := moved
      exact ⟨member, rfl⟩
    · cases moved
  | flushPageTorn txnId key written =>
    simp only [step, Option.bind_eq_bind, Option.bind_eq_some_iff] at stepped ⊢
    obtain ⟨txn, active, pool, found, next, flushed, moved⟩ := stepped
    refine ⟨txn, active, pool, found, next, flushed, ?_⟩
    split at moved
    · simp only [Option.ite_none_right_eq_some, Option.some.injEq] at moved ⊢
      obtain ⟨member, rfl⟩ := moved
      exact ⟨member, rfl⟩
    · cases moved
  | commitRelease txnId =>
    simp only [step, Option.bind_eq_bind, Option.bind_eq_some_iff, Option.ite_none_right_eq_some,
      Option.some.injEq] at stepped ⊢
    obtain ⟨txn, active, phase, rfl⟩ := stepped
    exact ⟨txn, active, phase, rfl⟩
  | abort txnId =>
    simp only [step, Option.bind_eq_bind, Option.bind_eq_some_iff, Option.ite_none_right_eq_some,
      Option.some.injEq] at stepped ⊢
    obtain ⟨txn, active, running, rfl⟩ := stepped
    exact ⟨txn, active, running, rfl⟩
  | discardPage txnId key =>
    simp only [step, Option.bind_eq_bind, Option.bind_eq_some_iff] at stepped ⊢
    obtain ⟨txn, active, pool, found, next, discarded, moved⟩ := stepped
    refine ⟨txn, active, pool, found, next, discarded, ?_⟩
    split at moved
    · simp only [Option.ite_none_right_eq_some, Option.some.injEq] at moved ⊢
      obtain ⟨member, rfl⟩ := moved
      exact ⟨member, rfl⟩
    · cases moved
  | abortRelease txnId =>
    simp only [step, Option.bind_eq_bind, Option.bind_eq_some_iff, Option.ite_none_right_eq_some,
      Option.some.injEq] at stepped ⊢
    obtain ⟨txn, active, phase, rfl⟩ := stepped
    exact ⟨txn, active, phase, rfl⟩
  | appendBegin | appendUpdate | appendCommit | appendAbort | flushBegin | fsync | flushEnd | flushReturn => cases leaves

theorem log_of_leaves (leaves : event.leavesLog = true) (stepped : s.step event = some s') :
    s'.log = s.log := by
  have same := step_withLog s.log s.flusher leaves stepped
  have next : some s' = some (s'.withLog s.log s.flusher) := stepped.symm.trans same
  rw [Option.some.inj next]
  rfl

theorem step_forced (stepped : s.step event = some s') (flushes : event.isFlush = false)
    (due : ∀ txnId txn lsn, s.activeTxns txnId = some txn → txn.phase = .forcing lsn → lsn ≤ s.log.lastLsn) :
    ∃ next, s.forced.step event = some next ∧ next.forced = s'.forced := by
  cases event with
  | appendBegin txnId =>
    obtain ⟨txn, log, lsn, active, phase, appended, rfl⟩ := step_appendBegin stepped
    obtain ⟨next, again, same⟩ := LogManager.appendRecord_forced appended
    refine ⟨{ s.forced.setTxn txnId { txn with phase := .running } with log := next }, ?_, ?_⟩
    · simp only [step, Option.bind_eq_bind, Option.bind_eq_some_iff, Option.ite_none_right_eq_some, Option.some.injEq]
      exact ⟨txn, active, ⟨next, lsn⟩, again, phase, rfl⟩
    · simp only [forced, withLog, same, setTxn]
  | appendUpdate txnId key image =>
    simp only [step, Option.bind_eq_bind, Option.bind_eq_some_iff] at stepped
    obtain ⟨txn, active, pool, found, ⟨content, pool'⟩, fetched, ⟨log, lsn⟩, appended, moved⟩ := stepped
    obtain ⟨next, again, same⟩ := LogManager.appendRecord_forced appended
    split at moved
    · rename_i pending phase
      simp only [Option.ite_none_right_eq_some, Option.some.injEq] at moved
      obtain ⟨member, rfl⟩ := moved
      refine ⟨{ (s.forced.setPool key.objectId pool').setTxn txnId
        { txn with phase := .logging (pending.erase key) } with log := next }, ?_, ?_⟩
      · simp only [step, Option.bind_eq_bind, Option.bind_eq_some_iff]
        refine ⟨txn, active, pool, found, ⟨content, pool'⟩, fetched, ⟨next, lsn⟩, again, ?_⟩
        simp only [phase, Option.ite_none_right_eq_some]
        exact ⟨member, trivial⟩
      · simp only [forced, withLog, same, setTxn, setPool]
    · cases moved
  | appendCommit txnId =>
    obtain ⟨txn, log, lsn, active, phase, appended, rfl⟩ := step_appendCommit stepped
    obtain ⟨next, again, same⟩ := LogManager.appendRecord_forced appended
    refine ⟨{ s.forced.setTxn txnId { txn with phase := .forcing lsn } with log := next }, ?_, ?_⟩
    · simp only [step, Option.bind_eq_bind, Option.bind_eq_some_iff, Option.ite_none_right_eq_some, Option.some.injEq]
      exact ⟨txn, active, ⟨next, lsn⟩, again, phase, rfl⟩
    · simp only [forced, withLog, same, setTxn]
  | appendAbort txnId =>
    obtain ⟨txn, log, lsn, active, phase, appended, rfl⟩ := step_appendAbort stepped
    obtain ⟨next, again, same⟩ := LogManager.appendRecord_forced appended
    refine ⟨{ s.forced.setTxn txnId { txn with phase := .discarded } with log := next }, ?_, ?_⟩
    · simp only [step, Option.bind_eq_bind, Option.bind_eq_some_iff, Option.ite_none_right_eq_some, Option.some.injEq]
      exact ⟨txn, active, ⟨next, lsn⟩, again, phase, rfl⟩
    · simp only [forced, withLog, same, setTxn]
  | flushReturn txnId =>
    obtain ⟨txn, lsn, active, phase, -, rfl⟩ := step_flushReturn stepped
    refine ⟨s.forced.setTxn txnId { txn with phase := .flushing txn.dirtiedPages }, ?_, rfl⟩
    simp only [step, Option.bind_eq_bind, Option.bind_eq_some_iff]
    refine ⟨txn, active, ?_⟩
    simp only [phase, Option.ite_none_right_eq_some]
    exact ⟨⟨due txnId txn lsn active phase, by simp [forced, withLog]⟩, trivial⟩
  | flushBegin | fsync | flushEnd => cases flushes
  | begin | lock | read | write | allocate | commit | flushPage | flushPageTorn | commitRelease | abort | discardPage
  | abortRelease =>
    refine ⟨s'.withLog s.log.forced none, step_withLog _ _ rfl stepped, ?_⟩
    rw [forced, forced, log_of_leaves rfl stepped]
    rfl

theorem flush_forced (stepped : s.step event = some s') (flushes : event.isFlush = true) : s'.forced = s.forced := by
  cases event with
  | flushBegin txnId =>
    obtain ⟨txn, lsn, -, -, -, -, rfl⟩ := step_flushBegin stepped
    rfl
  | fsync txnId covered =>
    obtain ⟨flusher, -, -, -, -, rfl⟩ := step_fsync stepped
    rfl
  | flushEnd txnId =>
    obtain ⟨flusher, -, -, -, rfl⟩ := step_flushEnd stepped
    rfl
  | _ => cases flushes

end Engine

theorem TxnLogged.mono {old : List LogRecord} {entries : List (LogEntry Nat PageKey PageImage)} {synced more txnId : Nat}
    {txn : Transaction} (logged : TxnLogged old entries synced txnId txn) (le : synced ≤ more) :
    TxnLogged old entries more txnId txn := by
  unfold TxnLogged at logged ⊢
  split at logged
  · exact logged
  · exact logged
  · exact logged
  · exact logged
  · exact logged
  · exact logged
  · exact ⟨logged.1.grow List.prefix_rfl le, logged.2⟩

theorem EndLogged.mono {old : List LogRecord} {events : List Event} {synced more txnId : Nat}
    (logged : EndLogged old events synced txnId) (le : synced ≤ more) : EndLogged old events more txnId :=
  logged.imp_left fun ⟨done, durable, updated⟩ => ⟨done, durable.grow List.prefix_rfl le, updated⟩

namespace Engine

variable {old : List LogRecord} {init : PageKey → PageImage} {events : List Event} {event : Event} {s s' : Engine}
  {txnId : Nat} {txn : Transaction} {key : PageKey}

theorem Logged.forced (logged : Logged old init events s) : Logged old init events s.forced := by
  have synced : s.log.file.synced ≤ s.forced.log.file.synced := logged.flushed.synced_le
  refine {
    file := ⟨logged.file.stored, logged.file.nextLsn⟩
    flushed := ⟨Nat.le_refl _, ?_, by simp [Engine.forced, withLog]⟩
    ids := logged.ids, fits := logged.fits, pages := logged.pages, isolated := logged.isolated
    faithful := logged.faithful
    active := fun txnId txn active => (logged.active txnId txn active).mono synced
    ended := fun txnId gone => (logged.ended txnId gone).mono synced
    disk := fun key => (logged.disk key).imp_right fun ⟨txnId, durable, updated⟩ =>
      ⟨txnId, durable.grow List.prefix_rfl synced, updated⟩ }
  have covers : Covers old (logEntries events) s.log.lastLsn s.log.file.content.length := by
    rw [logged.file.lastLsn, logged.file.length]
    exact covers_whole
  exact covers

theorem Logged.forcing_le (logged : Logged old init events s) {lsn : Nat} (active : s.activeTxns txnId = some txn)
    (phase : txn.phase = .forcing lsn) : lsn ≤ s.log.lastLsn := by
  have mine := logged.active txnId txn active
  simp only [TxnLogged, phase] at mine
  obtain ⟨⟨before, isPrefix, rfl⟩, -⟩ := mine
  have length := isPrefix.length_le
  simp only [List.length_append, List.length_singleton] at length
  rw [logged.file.lastLsn]
  omega

theorem Logged.step_of_forced (logged : Logged old init events s.forced) (serial : Serial init events s)
    (stepped : s.step event = some s') : Logged old init (events ++ [event]) s'.forced := by
  cases flushes : event.isFlush with
  | true =>
    rw [flush_forced stepped flushes]
    have quietly : event.logEntry = none ∧ event.access = none ∧ ∀ other, event ≠ .commitRelease other := by
      cases event <;> simp [Event.isFlush] at flushes <;> exact ⟨rfl, rfl, by simp⟩
    exact logged.idles quietly rfl rfl logged.flushed (Nat.le_refl _) rfl rfl rfl
  | false =>
    obtain ⟨next, again, same⟩ := step_forced stepped flushes fun txnId txn lsn active phase =>
      logged.forcing_le active phase
    rw [← same]
    exact (logged.step (serial.withLog _ _) again).forced

def Releasing (events : List Event) (txnId : Nat) : Prop :=
  txnId ∈ commits (logEntries events) ∧ txnId ∉ released events

structure Redone (init : PageKey → PageImage) (events : List Event) : Prop where
  releasing : ∀ txnId, Releasing events txnId → ∀ key ∈ (writesOf (accessesOf txnId events)).map Prod.fst,
    redo init (logEntries events) key =
      applyWrites (committedStore init events) (writesOf (accessesOf txnId events)) key
  settled : ∀ key, (∀ txnId, Releasing events txnId → key ∉ (writesOf (accessesOf txnId events)).map Prod.fst) →
    redo init (logEntries events) key = committedStore init events key

theorem redone_nil (init : PageKey → PageImage) : Redone init [] where
  releasing txnId committing := by
    have none := committing.1
    simp [logEntries, commits] at none
  settled _ _ := rfl

theorem Logged.redo_whole (logged : Logged old init events s.forced) (serial : Serial init events s)
    (store : PageKey → PageImage) :
    redo store (logEntries events) = applyWrites store
      ((commits (logEntries events)).flatMap fun txnId => writesOf (accessesOf txnId events)) := by
  have whole : surviving events (logSize (logEntries events)) = logEntries events := within_all (Nat.le_refl _)
  have redone := logged.redo_surviving (serial.withLog _ _) (logSize (logEntries events)) store
  rwa [whole] at redone

theorem Logged.active_of_releasing (logged : Logged old init events s.forced) (releasing : Releasing events txnId) :
    ∃ txn, s.activeTxns txnId = some txn := by
  cases found : s.activeTxns txnId with
  | some txn => exact ⟨txn, rfl⟩
  | none =>
    rcases logged.ended txnId found with ⟨done, -, -⟩ | ⟨-, unlogged⟩
    · exact absurd done releasing.2
    · exact absurd releasing.1 unlogged.no_commit

theorem Logged.not_committed_of_access (logged : Logged old init events s.forced) (serial : Serial init events s)
    (stepped : s.step event = some s') (accesses : event.access ≠ none) :
    event.txnId ∉ commits (logEntries events) := by
  rcases step_access serial.wellFormed stepped with none | ⟨txn, -, active, running, -⟩
  · exact absurd none accesses
  · exact (logged.unlogged_of_running active running).no_commit

theorem Logged.accessesOf_committed (logged : Logged old init events s.forced) (serial : Serial init events s)
    (stepped : s.step event = some s') (committed : txnId ∈ commits (logEntries events)) :
    accessesOf txnId (events ++ [event]) = accessesOf txnId events := by
  by_cases accesses : event.access = none
  · exact accessesOf_none accesses
  · refine accessesOf_other ?_
    rintro rfl
    exact logged.not_committed_of_access serial stepped accesses committed

theorem redo_silent (logged : Logged old init events s.forced) (serial : Serial init events s)
    (logged' : Logged old init (events ++ [event]) s'.forced) (serial' : Serial init (events ++ [event]) s')
    (stepped : s.step event = some s') (uncommitted : ∀ txnId, event ≠ .appendCommit txnId) :
    commits (logEntries (events ++ [event])) = commits (logEntries events) ∧
      redo init (logEntries (events ++ [event])) = redo init (logEntries events) := by
  have same : commits (logEntries (events ++ [event])) = commits (logEntries events) := by
    rw [logEntries_snoc, commits_append]
    cases event <;> simp [Event.logEntry, commits, LogEntry.committed?] at uncommitted ⊢
  refine ⟨same, ?_⟩
  rw [logged'.redo_whole serial', logged.redo_whole serial, same]
  congr 1
  refine List.flatMap_congr fun txnId committed => ?_
  rw [logged.accessesOf_committed serial stepped committed]

theorem redo_appendCommit (logged : Logged old init events s.forced) (serial : Serial init events s)
    (logged' : Logged old init (events ++ [.appendCommit txnId]) s'.forced)
    (serial' : Serial init (events ++ [.appendCommit txnId]) s')
    (stepped : s.step (.appendCommit txnId) = some s') :
    redo init (logEntries (events ++ [.appendCommit txnId])) =
      applyWrites (redo init (logEntries events)) (writesOf (accessesOf txnId events)) := by
  rw [logged'.redo_whole serial', logged.redo_whole serial, logEntries_snoc, commits_append, List.flatMap_append,
    applyWrites_append]
  have before : ((commits (logEntries events)).flatMap fun other =>
      writesOf (accessesOf other (events ++ [.appendCommit txnId]))) =
      (commits (logEntries events)).flatMap fun other => writesOf (accessesOf other events) :=
    List.flatMap_congr fun other committed => by rw [logged.accessesOf_committed serial stepped committed]
  have own : accessesOf txnId (events ++ [.appendCommit txnId]) = accessesOf txnId events := accessesOf_none rfl
  simp only [before, Event.logEntry, Option.toList_some, commits_commit, List.flatMap_singleton, own]

namespace Redone

theorem appendsCommit (redone : Redone init events) (logged : Logged old init events s.forced) (serial : Serial init events s)
    (logged' : Logged old init (events ++ [.appendCommit txnId]) s'.forced)
    (serial' : Serial init (events ++ [.appendCommit txnId]) s')
    (stepped : s.step (.appendCommit txnId) = some s') : Redone init (events ++ [.appendCommit txnId]) := by
  obtain ⟨txn, log, lsn, active, -, -, -⟩ := step_appendCommit stepped
  have value := redo_appendCommit logged serial logged' serial' stepped
  have history : committedStore init (events ++ [.appendCommit txnId]) = committedStore init events := by
    rw [committedStore, serial.serialHistory_unreleased (by simp) (.inl rfl)]
    rfl
  have accesses : ∀ other, accessesOf other (events ++ [.appendCommit txnId]) = accessesOf other events :=
    fun other => accessesOf_none rfl
  have waiting : ∀ other, Releasing (events ++ [.appendCommit txnId]) other →
      other = txnId ∨ Releasing events other := by
    rintro other ⟨committed, unreleased⟩
    rw [released_other (by simp)] at unreleased
    simp only [logEntries_snoc, commits_append, Event.logEntry, Option.toList_some, commits_commit, List.mem_append,
      List.mem_singleton] at committed
    rcases committed with before | rfl
    · exact .inr ⟨before, unreleased⟩
    · exact .inl rfl
  refine ⟨fun other releasing key written => ?_, fun key free => ?_⟩
  · rw [accesses] at written ⊢
    rw [value, history]
    rcases waiting other releasing with rfl | earlier
    · exact applyWrites_congr _ _ _ _ (.inl written)
    · -- whoever is waiting for its locks to go holds the page, so the new one has not written it
      by_cases same : other = txnId
      · subst same
        exact applyWrites_congr _ _ _ _ (.inl written)
      · obtain ⟨txn', active'⟩ := logged.active_of_releasing earlier
        have mine := (serial.dirtied other txn' active' key).mpr written
        have held := serial.exclusive other txn' active' key mine
        have others := serial.not_dirtied_by_other (.inl held) active (Ne.symm same)
        rw [applyWrites_unwritten _ _ _ fun member => others ((serial.dirtied txnId txn active key).mpr member)]
        exact redone.releasing other earlier key written
  · have mine : key ∉ (writesOf (accessesOf txnId events)).map Prod.fst := by
      rw [← accesses]
      refine free txnId ⟨by simp [logEntries_snoc, Event.logEntry], ?_⟩
      rw [released_other (by simp)]
      exact fun done => absurd active (by simp [(serial.ended txnId done).2])
    rw [value, history, applyWrites_unwritten _ _ _ mine]
    refine redone.settled key fun other releasing => ?_
    rw [← accesses]
    refine free other ⟨?_, ?_⟩
    · rw [logEntries_snoc, commits_append]
      exact List.mem_append_left _ releasing.1
    · rw [released_other (by simp)]
      exact releasing.2

theorem releases (redone : Redone init events) (logged : Logged old init events s.forced) (serial : Serial init events s)
    (logged' : Logged old init (events ++ [.commitRelease txnId]) s'.forced)
    (serial' : Serial init (events ++ [.commitRelease txnId]) s')
    (stepped : s.step (.commitRelease txnId) = some s') : Redone init (events ++ [.commitRelease txnId]) := by
  obtain ⟨txn, active, phase, -⟩ := step_commitRelease stepped
  obtain ⟨sameCommits, sameRedo⟩ := redo_silent logged serial logged' serial' stepped (by simp)
  have accesses : ∀ other, accessesOf other (events ++ [.commitRelease txnId]) = accessesOf other events :=
    fun other => accessesOf_none rfl
  have history : committedStore init (events ++ [.commitRelease txnId]) =
      applyWrites (committedStore init events) (writesOf (accessesOf txnId events)) := by
    have appended : serialHistory (events ++ [.commitRelease txnId]) =
        serialHistory events ++ accessesOf txnId events := by
      simp only [serialHistory, accesses, released_commitRelease, List.flatMap_append, List.flatMap_singleton]
    rw [committedStore, appended, writesOf_append, applyWrites_append]
    rfl
  have mine : Releasing events txnId := by
    have logs := logged.active txnId txn active
    simp only [TxnLogged, phase] at logs
    exact ⟨logs.1.committed, fun done => absurd active (by simp [(serial.ended txnId done).2])⟩
  have before : ∀ other, other ≠ txnId → Releasing events other → Releasing (events ++ [.commitRelease txnId]) other := by
    rintro other different ⟨committed, unreleased⟩
    exact ⟨sameCommits ▸ committed, by simpa [mem_released_snoc, Ne.symm different] using unreleased⟩
  refine ⟨fun other releasing key written => ?_, fun key free => ?_⟩
  · rw [accesses] at written ⊢
    rw [sameRedo]
    have earlier : Releasing events other := by
      refine ⟨sameCommits ▸ releasing.1, fun done => releasing.2 ?_⟩
      exact mem_released_snoc.mpr (.inl done)
    rw [redone.releasing other earlier key written]
    exact applyWrites_congr _ _ _ _ (.inl written)
  · rw [sameRedo, history]
    by_cases written : key ∈ (writesOf (accessesOf txnId events)).map Prod.fst
    · exact redone.releasing txnId mine key written
    · rw [applyWrites_unwritten _ _ _ written]
      refine redone.settled key fun other releasing => ?_
      by_cases same : other = txnId
      · rwa [same]
      · rw [← accesses]
        exact free other (before other same releasing)

theorem step (redone : Redone init events) (logged : Logged old init events s.forced) (serial : Serial init events s)
    (logged' : Logged old init (events ++ [event]) s'.forced) (serial' : Serial init (events ++ [event]) s')
    (stepped : s.step event = some s') : Redone init (events ++ [event]) := by
  by_cases committing : ∃ txnId, event = .appendCommit txnId
  · obtain ⟨txnId, rfl⟩ := committing
    exact redone.appendsCommit logged serial logged' serial' stepped
  by_cases releasing : ∃ txnId, event = .commitRelease txnId
  · obtain ⟨txnId, rfl⟩ := releasing
    exact redone.releases logged serial logged' serial' stepped
  have uncommitted : ∀ txnId, event ≠ .appendCommit txnId := fun txnId same => committing ⟨txnId, same⟩
  have unreleased : ∀ txnId, event ≠ .commitRelease txnId := fun txnId same => releasing ⟨txnId, same⟩
  obtain ⟨sameCommits, sameRedo⟩ := redo_silent logged serial logged' serial' stepped uncommitted
  have live : event.access = none ∨ s.activeTxns event.txnId ≠ none := by
    rcases step_access serial.wellFormed stepped with none | ⟨txn, -, active, -⟩
    · exact .inl none
    · exact .inr (by simp [active])
  have history : committedStore init (events ++ [event]) = committedStore init events := by
    rw [committedStore, serial.serialHistory_unreleased unreleased live]
    rfl
  have same : ∀ txnId, Releasing (events ++ [event]) txnId ↔ Releasing events txnId := by
    intro txnId
    rw [Releasing, Releasing, sameCommits, released_other unreleased]
  have accesses : ∀ txnId, Releasing events txnId → accessesOf txnId (events ++ [event]) = accessesOf txnId events :=
    fun txnId earlier => logged.accessesOf_committed serial stepped earlier.1
  refine ⟨fun txnId later key written => ?_, fun key free => ?_⟩
  · have earlier := (same txnId).mp later
    rw [accesses txnId earlier] at written ⊢
    rw [sameRedo, history]
    exact redone.releasing txnId earlier key written
  · rw [sameRedo, history]
    refine redone.settled key fun txnId earlier => ?_
    rw [← accesses txnId earlier]
    exact free txnId ((same txnId).mpr earlier)

theorem idle (redone : Redone init events) (logged : Logged old init events s.forced)
    (nobody : ∀ txnId, s.activeTxns txnId = none) : redo init (logEntries events) = committedStore init events := by
  funext key
  refine redone.settled key fun txnId releasing => ?_
  obtain ⟨txn, active⟩ := logged.active_of_releasing releasing
  cases (nobody txnId).symm.trans active

end Redone

end Engine

end FlintDB
