import FlintDB.Txn.FailedCommit
import FlintDB.Txn.ForcedLog
import FlintDB.Txn.LogContents

set_option autoImplicit false

-- As long as no failed append has left part of a record in the file, what fsync has covered is found again. The LSNs
-- run ahead of the records, since an append that fails uses one up.

namespace FlintDB

open Lib

-- Every record up to `lsn` ends within the first `bytes` bytes.
def Reaches (records : List LogRecord) (lsn bytes : Nat) : Prop :=
  ∀ before record, before ++ [record] <+: records → record.lsn ≤ lsn → goodLength (before ++ [record]) ≤ bytes

def CommitWithin (records : List LogRecord) (bytes txnId : Nat) : Prop :=
  ∃ before record, before ++ [record] <+: records ∧ record.entry = .commit txnId ∧ goodLength (before ++ [record]) ≤ bytes

def TxnForced (records : List LogRecord) (synced txnId : Nat) (txn : Transaction) : Prop :=
  match txn.phase with
  | .forcing lsn => ∃ before record, before ++ [record] <+: records ∧ record.entry = .commit txnId ∧ record.lsn = lsn
  | .flushing _ => CommitWithin records synced txnId
  | _ => True

structure Forced (records : List LogRecord) (events : List Event) (s : Engine) : Prop where
  synced : s.log.file.synced ≤ goodLength records
  numbered : ∀ record ∈ records, record.lsn < s.log.nextLsn
  below : s.log.durableLsn < s.log.nextLsn
  durable : Reaches records s.log.durableLsn s.log.file.synced
  flusher : ∀ flusher, s.flusher = some flusher → flusher.toCover < s.log.nextLsn ∧
    Reaches records flusher.toCover flusher.startLength ∧
      (flusher.fsynced = true → flusher.startLength ≤ s.log.file.synced)
  active : ∀ txnId txn, s.activeTxns txnId = some txn → TxnForced records s.log.file.synced txnId txn
  released : ∀ txnId ∈ released events, CommitWithin records s.log.file.synced txnId

section Grow

variable {records : List LogRecord} {record : LogRecord} {events : List Event} {event : Event} {s s' : Engine}
  {lsn lsn' bytes bytes' txnId : Nat} {txn : Transaction}

theorem Reaches.snoc (reaches : Reaches records lsn bytes) (later : lsn < record.lsn) :
    Reaches (records ++ [record]) lsn bytes := by
  intro before last isPrefix within
  rcases List.prefix_concat_iff.mp isPrefix with whole | earlier
  · obtain ⟨-, same⟩ := List.append_inj' whole rfl
    cases same
    omega
  · exact reaches before last earlier within

theorem Reaches.bytes_le (reaches : Reaches records lsn bytes) (more : bytes ≤ bytes') : Reaches records lsn bytes' :=
  fun before last isPrefix within => (reaches before last isPrefix within).trans more

theorem Reaches.max (reaches : Reaches records lsn bytes) (reaches' : Reaches records lsn' bytes) :
    Reaches records (max lsn lsn') bytes := by
  intro before last isPrefix within
  rcases le_max_iff.mp within with le | le
  · exact reaches before last isPrefix le
  · exact reaches' before last isPrefix le

theorem CommitWithin.grow (committed : CommitWithin records bytes txnId) (more : bytes ≤ bytes') (rest : List LogRecord) :
    CommitWithin (records ++ rest) bytes' txnId := by
  obtain ⟨before, last, isPrefix, entry, within⟩ := committed
  exact ⟨before, last, isPrefix.trans (List.prefix_append _ _), entry, within.trans more⟩

theorem TxnForced.grow (forced : TxnForced records bytes txnId txn) (more : bytes ≤ bytes') (rest : List LogRecord) :
    TxnForced (records ++ rest) bytes' txnId txn := by
  unfold TxnForced at forced ⊢
  cases phase : txn.phase with
  | forcing lsn =>
    simp only [phase] at forced ⊢
    obtain ⟨before, last, isPrefix, known⟩ := forced
    exact ⟨before, last, isPrefix.trans (List.prefix_append _ _), known⟩
  | flushing pending =>
    simp only [phase] at forced ⊢
    exact forced.grow more rest
  | _ => trivial

end Grow

namespace Forced

variable {records : List LogRecord} {record : LogRecord} {init : PageKey → PageImage} {events : List Event}
  {event : Event} {s s' : Engine} {txnId : Nat} {txn : Transaction}

theorem start {log : LogManager} {files : Nat → Option DiskManager} (empty : log.file.synced = 0)
    (fresh : log.durableLsn < log.nextLsn) : Forced [] [] (Engine.start log files) where
  synced := by simp [Engine.start, empty]
  numbered := by simp
  below := fresh
  durable before record isPrefix := by simp at isPrefix
  flusher := by simp [Engine.start]
  active := by simp [Engine.start]
  released _ member := by cases member

theorem next (forced : Forced records events s) (log : s'.log.nextLsn = s.log.nextLsn)
    (synced : s'.log.file.synced ≤ goodLength records) (more : s.log.file.synced ≤ s'.log.file.synced)
    (below : s'.log.durableLsn < s.log.nextLsn) (durable : Reaches records s'.log.durableLsn s'.log.file.synced)
    (flusher : ∀ flusher, s'.flusher = some flusher → flusher.toCover < s.log.nextLsn ∧
      Reaches records flusher.toCover flusher.startLength ∧
        (flusher.fsynced = true → flusher.startLength ≤ s'.log.file.synced))
    (others : ∀ other, other ≠ event.txnId → s'.activeTxns other = s.activeTxns other)
    (own : ∀ txn, s'.activeTxns event.txnId = some txn → TxnForced records s'.log.file.synced event.txnId txn)
    (ended : ∀ other, event = .commitRelease other → CommitWithin records s'.log.file.synced other) :
    Forced records (events ++ [event]) s' := by
  refine ⟨synced, by rw [log]; exact forced.numbered, by rw [log]; exact below, durable, by rw [log]; exact flusher,
    fun other found present => ?_, fun other member => ?_⟩
  · by_cases mine : other = event.txnId
    · subst mine
      exact own found present
    · rw [others other mine] at present
      simpa using (forced.active other found present).grow more []
  · rcases mem_released_snoc.mp member with before | now
    · simpa using (forced.released other before).grow more []
    · exact ended other now

theorem leaves (forced : Forced records events s) (log : s'.log = s.log) (flusher : s'.flusher = s.flusher)
    (others : ∀ other, other ≠ event.txnId → s'.activeTxns other = s.activeTxns other)
    (own : ∀ txn, s'.activeTxns event.txnId = some txn → TxnForced records s.log.file.synced event.txnId txn)
    (ended : ∀ other, event = .commitRelease other → CommitWithin records s.log.file.synced other) :
    Forced records (events ++ [event]) s' :=
  forced.next (by rw [log]) (by rw [log]; exact forced.synced) (by rw [log]) (by rw [log]; exact forced.below)
    (by rw [log]; exact forced.durable) (by rw [log, flusher]; exact forced.flusher) others (by rw [log]; exact own)
    (by rw [log]; exact ended)

theorem sets (forced : Forced records events s) (log : s'.log = s.log) (flusher : s'.flusher = s.flusher)
    (others : ∀ other, other ≠ event.txnId → s'.activeTxns other = s.activeTxns other)
    (now : s'.activeTxns event.txnId = some txn) (own : TxnForced records s.log.file.synced event.txnId txn)
    (unreleased : ∀ other, event ≠ .commitRelease other) : Forced records (events ++ [event]) s' := by
  refine forced.leaves log flusher others (fun found present => ?_) fun other releases =>
    absurd releases (unreleased other)
  cases now.symm.trans present
  exact own

theorem appends {new : List LogRecord} (forced : Forced records events s)
    (nextLsn : s'.log.nextLsn = s.log.nextLsn + 1) (synced : s'.log.file.synced = s.log.file.synced)
    (durable : s'.log.durableLsn = s.log.durableLsn) (flusher : s'.flusher = s.flusher)
    (one : new = [] ∨ ∃ record, new = [record] ∧ record.lsn = s.log.nextLsn)
    (others : ∀ other, other ≠ event.txnId → s'.activeTxns other = s.activeTxns other)
    (own : ∀ txn, s'.activeTxns event.txnId = some txn →
      TxnForced (records ++ new) s.log.file.synced event.txnId txn)
    (unreleased : ∀ other, event ≠ .commitRelease other) : Forced (records ++ new) (events ++ [event]) s' := by
  have reaches : ∀ {lsn bytes}, lsn < s.log.nextLsn → Reaches records lsn bytes → Reaches (records ++ new) lsn bytes := by
    intro lsn bytes earlier reached
    rcases one with rfl | ⟨record, rfl, numbered⟩
    · rwa [List.append_nil]
    · exact reached.snoc (numbered ▸ earlier)
  refine ⟨?_, fun other member => ?_, ?_, ?_, fun found present => ?_, fun other found present => ?_,
    fun other member => ?_⟩
  · rw [synced, goodLength_append]
    exact forced.synced.trans (Nat.le_add_right _ _)
  · rw [nextLsn]
    rcases List.mem_append.mp member with before | this
    · exact (forced.numbered other before).trans (Nat.lt_succ_self _)
    · rcases one with rfl | ⟨record, rfl, numbered⟩
      · cases this
      · rw [List.mem_singleton.mp this, numbered]
        exact Nat.lt_succ_self _
  · rw [nextLsn, durable]
    exact forced.below.trans (Nat.lt_succ_self _)
  · rw [synced, durable]
    exact reaches forced.below forced.durable
  · rw [flusher] at present
    obtain ⟨earlier, reached, done⟩ := forced.flusher found present
    exact ⟨by rw [nextLsn]; exact earlier.trans (Nat.lt_succ_self _), reaches earlier reached, by rw [synced]; exact done⟩
  · rw [synced]
    by_cases mine : other = event.txnId
    · subst mine
      exact own found present
    · rw [others other mine] at present
      exact (forced.active other found present).grow (Nat.le_refl _) new
  · rw [released_other unreleased] at member
    rw [synced]
    exact (forced.released other member).grow (Nat.le_refl _) new

theorem own_appended {record : LogRecord} (stepped : s.step event = some s') (appends : event.isAppend = true)
    (logs : event.logEntry = some record.entry) (numbered : record.lsn = s.log.nextLsn) (bytes : Nat)
    (txn : Transaction) (present : s'.activeTxns event.txnId = some txn) :
    TxnForced (records ++ [record]) bytes event.txnId txn := by
  cases event with
  | appendBegin txnId =>
    obtain ⟨before, log, lsn, -, -, -, rfl⟩ := Engine.step_appendBegin stepped
    cases present.symm.trans (Function.update_self ..)
    trivial
  | appendUpdate txnId key image =>
    obtain ⟨before, pending, pools, log, lsn, -, -, -, -, -, rfl, -⟩ := Engine.step_appendUpdate stepped
    cases present.symm.trans (Function.update_self ..)
    trivial
  | appendCommit txnId =>
    obtain ⟨before, log, lsn, -, -, appended, rfl⟩ := Engine.step_appendCommit stepped
    obtain ⟨rfl, -, -⟩ := LogManager.appendRecord_some appended
    cases present.symm.trans (Function.update_self ..)
    exact ⟨records, record, List.prefix_rfl, Option.some.inj logs.symm, numbered⟩
  | appendAbort txnId =>
    obtain ⟨before, log, lsn, -, -, -, rfl⟩ := Engine.step_appendAbort stepped
    cases present.symm.trans (Function.update_self ..)
    trivial
  | _ => cases appends

theorem quiet (forced : Forced records events s) (wellFormed : s.WellFormed)
    (born : ∀ txnId, s.activeTxns txnId ≠ none → txnId < s.nextTxnId) (stepped : s.step event = some s')
    (silent : event.isAppend = false) (whole : s.log.file.content.length = goodLength records)
    (small : s.log.nextLsn < 2 ^ 64) : Forced records (events ++ [event]) s' := by
  have others := (Engine.moved wellFormed born stepped).others
  have last : s.log.lastLsn < s.log.nextLsn := by
    have positive : 0 < s.log.nextLsn := Nat.zero_lt_of_lt forced.below
    rw [LogManager.lastLsn, wrapLsn_pred positive small]
    omega
  cases event with
  | begin txnId =>
    obtain ⟨-, -, rfl⟩ := Engine.step_begin stepped
    exact forced.sets rfl rfl others (Function.update_self ..) trivial (by simp)
  | lock txnId key mode =>
    obtain ⟨txn, active, running, same | ⟨next, -, same⟩⟩ := Engine.step_lock stepped <;> subst same
    all_goals
      exact forced.leaves rfl rfl others (fun found present => forced.active _ found present) (by simp)
  | read txnId key image =>
    obtain ⟨txn, pools, active, running, -, -, rfl, -⟩ := Engine.step_read stepped
    exact forced.leaves rfl rfl others (fun found present => forced.active _ found present) (by simp)
  | write txnId key image =>
    obtain ⟨txn, pools, active, running, -, rfl, -⟩ := Engine.step_write stepped
    exact forced.sets rfl rfl others (Function.update_self ..) (by simp only [TxnForced, running]) (by simp)
  | allocate txnId key =>
    obtain ⟨txn, pools, locks, active, running, -, rfl, -⟩ := Engine.step_allocate wellFormed stepped
    exact forced.sets rfl rfl others (Function.update_self ..) (by simp only [TxnForced, running]) (by simp)
  | commit txnId =>
    obtain ⟨txn, active, running, rfl⟩ := Engine.step_commit stepped
    exact forced.sets rfl rfl others (Function.update_self ..) trivial (by simp)
  | flushBegin txnId =>
    obtain ⟨txn, lsn, active, phase, -, -, rfl⟩ := Engine.step_flushBegin stepped
    refine forced.next rfl forced.synced (Nat.le_refl _) forced.below forced.durable (fun found present => ?_) others
      (fun found present => forced.active _ found present) (by simp)
    cases present
    have mine := forced.active txnId txn active
    simp only [TxnForced, phase] at mine
    obtain ⟨before, record, isPrefix, -, rfl⟩ := mine
    refine ⟨Nat.max_lt.mpr ⟨forced.numbered record (isPrefix.subset (by simp)), last⟩, ?_, by simp⟩
    intro before' record' isPrefix' _
    simp only [whole]
    obtain ⟨rest, rfl⟩ := isPrefix'
    rw [goodLength_append (before' ++ [record'])]
    exact Nat.le_add_right _ _
  | fsync txnId covered =>
    obtain ⟨flusher, flushing, -, started, within, rfl⟩ := Engine.step_fsync stepped
    have more := Nat.le_max_left s.log.file.synced covered
    refine forced.next rfl (Nat.max_le.mpr ⟨forced.synced, whole ▸ within⟩) more forced.below
      (forced.durable.bytes_le more) (fun found present => ?_) others (fun found present => ?_) (by simp)
    · cases present
      obtain ⟨earlier, reached, -⟩ := forced.flusher flusher flushing
      exact ⟨earlier, reached, fun _ => started.trans (Nat.le_max_right _ _)⟩
    · simpa using (forced.active _ found present).grow more []
  | flushEnd txnId =>
    obtain ⟨flusher, flushing, -, done, rfl⟩ := Engine.step_flushEnd stepped
    obtain ⟨earlier, reached, synced⟩ := forced.flusher flusher flushing
    exact forced.next rfl forced.synced (Nat.le_refl _) (Nat.max_lt.mpr ⟨forced.below, earlier⟩)
      (forced.durable.max (reached.bytes_le (synced done))) (by simp) others
      (fun found present => forced.active _ found present) (by simp)
  | flushReturn txnId =>
    obtain ⟨txn, lsn, active, phase, durable, rfl⟩ := Engine.step_flushReturn stepped
    have mine := forced.active txnId txn active
    simp only [TxnForced, phase] at mine
    obtain ⟨before, record, isPrefix, entry, rfl⟩ := mine
    exact forced.sets rfl rfl others (Function.update_self ..)
      ⟨before, record, isPrefix, entry, forced.durable before record isPrefix durable⟩ (by simp)
  | flushPage txnId key =>
    obtain ⟨txn, pending, pools, active, phase, -, rfl, -⟩ := Engine.step_flushPage stepped
    have mine := forced.active txnId txn active
    simp only [TxnForced, phase] at mine
    exact forced.sets rfl rfl others (Function.update_self ..) mine (by simp)
  | flushPageTorn txnId key written =>
    obtain ⟨txn, pending, pools, active, phase, -, rfl, -⟩ := Engine.step_flushPageTorn stepped
    exact forced.leaves rfl rfl others (fun found present => forced.active _ found present) (by simp)
  | commitRelease txnId =>
    obtain ⟨txn, active, phase, rfl⟩ := Engine.step_commitRelease stepped
    have mine := forced.active txnId txn active
    simp only [TxnForced, phase] at mine
    refine forced.leaves rfl rfl others (fun found present => by simp [Engine.finish, Event.txnId] at present) ?_
    rintro other same
    cases same
    exact mine
  | abort txnId =>
    obtain ⟨txn, active, running, rfl⟩ := Engine.step_abort stepped
    exact forced.sets rfl rfl others (Function.update_self ..) trivial (by simp)
  | discardPage txnId key =>
    obtain ⟨txn, pending, pools, active, phase, -, rfl, -⟩ := Engine.step_discardPage stepped
    exact forced.sets rfl rfl others (Function.update_self ..) trivial (by simp)
  | abortRelease txnId =>
    obtain ⟨txn, active, phase, rfl⟩ := Engine.step_abortRelease stepped
    exact forced.leaves rfl rfl others (fun found present => by simp [Engine.finish, Event.txnId] at present) (by simp)
  | appendBegin | appendUpdate | appendCommit | appendAbort => cases silent

end Forced

namespace Engine

variable {init : PageKey → PageImage} {events : List Event} {event : Event} {s s' : Engine} {txnId : Nat}
  {txn' : Transaction} {key : PageKey}

theorem flushing_origin {pending' : Finset PageKey} (wellFormed : s.WellFormed) (stepped : s.step event = some s')
    (active' : s'.activeTxns event.txnId = some txn') (phase' : txn'.phase = .flushing pending') :
    ∃ txn, s.activeTxns event.txnId = some txn ∧ txn.dirtiedPages = txn'.dirtiedPages ∧
      ((∃ lsn, txn.phase = .forcing lsn) ∨ ∃ pending, txn.phase = .flushing pending) := by
  have impossible : ∀ {txn : Transaction}, s'.activeTxns event.txnId = some txn → txn.phase.closing = false → False := by
    intro txn present isOpen
    cases active'.symm.trans present
    rw [phase'] at isOpen
    cases isOpen
  cases event with
  | begin txnId =>
    obtain ⟨-, -, rfl⟩ := step_begin stepped
    exact (impossible (Function.update_self ..) rfl).elim
  | appendBegin txnId =>
    obtain ⟨txn, log, lsn, -, -, -, rfl⟩ := step_appendBegin stepped
    exact (impossible (Function.update_self ..) rfl).elim
  | lock txnId key mode =>
    obtain ⟨txn, active, running, rfl | ⟨next, -, rfl⟩⟩ := step_lock stepped
    all_goals
      exact (impossible active (by rw [running]; rfl)).elim
  | read txnId key image =>
    obtain ⟨txn, pools, active, running, -, -, rfl, -⟩ := step_read stepped
    exact (impossible active (by rw [running]; rfl)).elim
  | write txnId key image =>
    obtain ⟨txn, pools, active, running, -, rfl, -⟩ := step_write stepped
    exact (impossible (Function.update_self ..) (by simp only [running]; rfl)).elim
  | allocate txnId key =>
    obtain ⟨txn, pools, locks, active, running, -, rfl, -⟩ := step_allocate wellFormed stepped
    exact (impossible (Function.update_self ..) (by simp only [running]; rfl)).elim
  | commit txnId =>
    obtain ⟨txn, active, running, rfl⟩ := step_commit stepped
    exact (impossible (Function.update_self ..) rfl).elim
  | appendUpdate txnId key image =>
    obtain ⟨txn, pending, pools, log, lsn, active, -, -, -, -, rfl, -⟩ := step_appendUpdate stepped
    exact (impossible (Function.update_self ..) rfl).elim
  | appendCommit txnId =>
    obtain ⟨txn, log, lsn, active, -, -, rfl⟩ := step_appendCommit stepped
    cases active'.symm.trans (Function.update_self ..)
    cases phase'
  | flushBegin txnId =>
    obtain ⟨txn, lsn, active, phase, -, -, rfl⟩ := step_flushBegin stepped
    cases active.symm.trans active'
    exact ⟨txn', active, rfl, .inl ⟨lsn, phase⟩⟩
  | fsync txnId covered =>
    obtain ⟨flusher, -, -, -, -, rfl⟩ := step_fsync stepped
    exact ⟨txn', active', rfl, .inr ⟨pending', phase'⟩⟩
  | flushEnd txnId =>
    obtain ⟨flusher, -, -, -, rfl⟩ := step_flushEnd stepped
    exact ⟨txn', active', rfl, .inr ⟨pending', phase'⟩⟩
  | flushReturn txnId =>
    obtain ⟨txn, lsn, active, phase, -, rfl⟩ := step_flushReturn stepped
    cases active'.symm.trans (Function.update_self ..)
    exact ⟨txn, active, rfl, .inl ⟨lsn, phase⟩⟩
  | flushPage txnId key =>
    obtain ⟨txn, pending, pools, active, phase, -, rfl, -⟩ := step_flushPage stepped
    cases active'.symm.trans (Function.update_self ..)
    exact ⟨txn, active, rfl, .inr ⟨pending, phase⟩⟩
  | flushPageTorn txnId key written =>
    obtain ⟨txn, pending, pools, active, phase, -, rfl, -⟩ := step_flushPageTorn stepped
    exact ⟨txn', active', rfl, .inr ⟨pending', phase'⟩⟩
  | commitRelease txnId =>
    obtain ⟨txn, -, -, rfl⟩ := step_commitRelease stepped
    simp [finish, Event.txnId] at active'
  | abort txnId =>
    obtain ⟨txn, active, running, rfl⟩ := step_abort stepped
    exact (impossible (Function.update_self ..) rfl).elim
  | discardPage txnId key =>
    obtain ⟨txn, pending, pools, active, phase, -, rfl, -⟩ := step_discardPage stepped
    exact (impossible (Function.update_self ..) rfl).elim
  | appendAbort txnId =>
    obtain ⟨txn, log, lsn, active, -, -, rfl⟩ := step_appendAbort stepped
    exact (impossible (Function.update_self ..) rfl).elim
  | abortRelease txnId =>
    obtain ⟨txn, -, -, rfl⟩ := step_abortRelease stepped
    simp [finish, Event.txnId] at active'

theorem Serial.committedStore_kept {txn : Transaction} (serial : Serial init events s) (stepped : s.step event = some s')
    (active : s.activeTxns txnId = some txn) (dirtied : key ∈ txn.dirtiedPages) (still : s'.activeTxns txnId ≠ none) :
    committedStore init (events ++ [event]) key = committedStore init events key := by
  by_cases releases : ∃ other, event = .commitRelease other
  · obtain ⟨other, rfl⟩ := releases
    obtain ⟨txn', active', -, rfl⟩ := step_commitRelease stepped
    have different : other ≠ txnId := by
      rintro rfl
      simp [finish] at still
    have accesses : ∀ another, accessesOf another (events ++ [.commitRelease other]) = accessesOf another events :=
      fun another => accessesOf_none rfl
    have history : serialHistory (events ++ [.commitRelease other]) =
        serialHistory events ++ accessesOf other events := by
      simp only [serialHistory, accesses, released_commitRelease, List.flatMap_append, List.flatMap_singleton]
    rw [committedStore, history, writesOf_append, applyWrites_append]
    refine applyWrites_unwritten _ _ _ fun written => ?_
    exact serial.not_dirtied_by_other (.inl (serial.exclusive txnId txn active key dirtied)) active' different
      ((serial.dirtied other txn' active' key).mpr written)
  · have unreleased : ∀ other, event ≠ .commitRelease other := fun other same => releases ⟨other, same⟩
    have live : event.access = none ∨ s.activeTxns event.txnId ≠ none := by
      refine (step_access serial.wellFormed stepped).imp_right ?_
      rintro ⟨txn', -, active', -⟩
      simp [active']
    rw [committedStore, committedStore, serial.serialHistory_unreleased unreleased live]

def Mixing (init : PageKey → PageImage) (events : List Event) (s : Engine) : Prop :=
  ∀ txnId txn pending key, s.activeTxns txnId = some txn → txn.phase = .flushing pending → key ∈ txn.dirtiedPages →
    (s.onDisk key).MixedOf (committedStore init events key) (applyWrites init (writesOf (accessesOf txnId events)) key)

theorem Mixing.step (mixing : Mixing init events s) (serial : Serial init events s) (stepped : s.step event = some s') :
    Mixing init (events ++ [event]) s' := by
  intro txnId txn' pending' key active' phase' dirtied'
  obtain ⟨txn, active, pages, closing⟩ : ∃ txn, s.activeTxns txnId = some txn ∧ txn.dirtiedPages = txn'.dirtiedPages ∧
      ((∃ lsn, txn.phase = .forcing lsn) ∨ ∃ pending, txn.phase = .flushing pending) := by
    by_cases own : txnId = event.txnId
    · subst own
      exact flushing_origin serial.wellFormed stepped active' phase'
    · rw [(moved serial.wellFormed serial.born stepped).others txnId own] at active'
      exact ⟨txn', active', rfl, .inr ⟨pending', phase'⟩⟩
  have dirtied : key ∈ txn.dirtiedPages := pages ▸ dirtied'
  have accesses : accessesOf txnId (events ++ [event]) = accessesOf txnId events := by
    rcases step_access serial.wellFormed stepped with noAccess | ⟨before, -, runs, running, -⟩
    · exact accessesOf_none noAccess
    · refine accessesOf_other ?_
      rintro rfl
      cases active.symm.trans runs
      rcases closing with ⟨lsn, phase⟩ | ⟨pending, phase⟩ <;> cases phase.symm.trans running
  have state := serial.dirty txnId txn active key dirtied
  have written := (serial.dirtied txnId txn active key).mp dirtied
  have before : (s.onDisk key).MixedOf (committedStore init events key)
      (applyWrites init (writesOf (accessesOf txnId events)) key) := by
    rcases closing with ⟨lsn, phase⟩ | ⟨pending, phase⟩
    · rw [phase] at state
      intro i
      rw [state.2.1]
      exact .inl rfl
    · exact mixing txnId txn pending key active phase dirtied
  rw [serial.committedStore_kept stepped active dirtied (by simp [active']), accesses]
  rcases onDisk_flushed serial stepped key with same | ⟨⟨other, pending, theirs, phase, member⟩, bytes, same⟩
  · rw [same]
    exact before
  · have mine : event.txnId = txnId := by
      by_contra different
      exact serial.not_dirtied_by_other (.inl (serial.exclusive txnId txn active key dirtied)) theirs different
        (serial.dirtied_of_pending theirs phase member)
    subst mine
    cases active.symm.trans theirs
    rw [phase] at state
    intro i
    rw [same]
    rcases PageImage.overwrite_byte bytes (s.content key) (s.onDisk key) i with new | old
    · refine .inr (new.trans ?_)
      rw [state.1]
      congr 2
      exact applyWrites_congr _ _ _ _ (.inl written)
    · rw [old]
      exact before i

theorem Mixing.start (log : LogManager) (files : Nat → Option DiskManager) :
    Mixing init [] (Engine.start log files) := by
  intro txnId txn pending key active
  cases active

end Engine

end FlintDB
