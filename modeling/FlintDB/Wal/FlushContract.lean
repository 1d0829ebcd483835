import FlintDB.Lib.Run
import FlintDB.Wal.LogManager

set_option autoImplicit false

-- Sequences of calls on one LogManager, with the offsets its appends reached kept as history.

namespace FlintDB.FlushContract

open Lib

inductive Call
  | appendBegin (txnId : Nat)
  | appendUpdate (txnId : Nat) (objectId : Nat) (pageId : Nat) (image : PageImage)
  | appendCommit (txnId : Nat)
  | appendAbort (txnId : Nat)
  | flushThrough (lsn : Nat)
  | checkpoint
  deriving DecidableEq

structure State where
  log : LogManager
  -- LSN and end offset of the records appended since the last checkpoint
  appended : List (Nat × Nat) := []
  -- every LSN an append has returned, checkpoints notwithstanding
  returned : List Nat := []

def State.record (s : State) : Option (LogManager × Nat) → Option State
  | none => none
  | some (log, lsn) => some {
      log := log
      appended := (lsn, log.file.content.length) :: s.appended
      returned := lsn :: s.returned }

def step (s : State) : Call → Option State
  | .appendBegin txnId => s.record (s.log.appendBegin txnId)
  | .appendUpdate txnId objectId pageId image =>
    s.record (s.log.appendUpdate txnId objectId pageId image)
  | .appendCommit txnId => s.record (s.log.appendCommit txnId)
  | .appendAbort txnId => s.record (s.log.appendAbort txnId)
  | .flushThrough lsn =>
    if lsn ∈ s.returned then (s.log.flushThrough lsn).map fun log => { s with log := log }
    else none
  | .checkpoint => some { s with log := s.log.checkpoint, appended := [] }

def freshlyOpened (data : Bytes) : State := { log := LogManager.open data }

/-- The log calls of TransactionManager::Commit, up to the point where FlushPages starts: the
state there, and the offset at which the Commit record ends. -/
def commit (s : State) (txnId : Nat) (pages : List (PageKey × PageImage)) :
    Option (State × Nat) := do
  let logged ← run step s (pages.map fun page =>
    .appendUpdate txnId page.1.objectId page.1.pageId page.2)
  let committed ← step logged (.appendCommit txnId)
  let flushed ← step committed (.flushThrough logged.log.nextLsn)
  return (flushed, committed.log.file.content.length)

def CommitForcesLog (s : State) : Prop :=
  ∀ txnId pages s' stop, commit s txnId pages = some (s', stop) → stop ≤ s'.log.file.synced

-- A fsync has covered the bytes of the record with this LSN.
def State.Fsynced (s : State) (lsn : Nat) : Prop :=
  ∀ stop, (lsn, stop) ∈ s.appended → stop ≤ s.log.file.synced

/-- Every flush of the sequence that returns has flushed, the published LSN stays behind the next
one, and a Commit started anywhere forces its record before its pages. -/
def FlushesWhatItReturns (start : State) (calls : List Call) : Prop :=
  ∀ before after s, calls = before ++ after → run step start before = some s →
    s.log.durableLsn < s.log.nextLsn ∧ CommitForcesLog s ∧
      ∀ earlier lsn, before = earlier ++ [.flushThrough lsn] → s.Fsynced lsn

/-- No checkpoint follows a completed flush, and no flush is asked for with the LSN of a record that
an earlier checkpoint wiped. -/
def NoFlushAcrossCheckpoint (start : State) (calls : List Call) : Prop :=
  ∀ before call after s, calls = before ++ call :: after → run step start before = some s →
    (call = .checkpoint → s.log.durableLsn = 0) ∧
      ∀ lsn, call = .flushThrough lsn → (∃ s', step s call = some s') → lsn < s.log.nextLsn

-- next_lsn_ has not wrapped around to 0, and no Commit that could be started here takes it there.
structure State.Numbered (s : State) : Prop where
  positive : 0 < s.log.nextLsn
  commits : ∀ txnId pages s' stop, commit s txnId pages = some (s', stop) → s.log.nextLsn + pages.length < 2 ^ 64

def LsnsLast (start : State) (calls : List Call) : Prop :=
  ∀ before after s, calls = before ++ after → run step start before = some s → s.Numbered

structure Inv (s : State) : Prop where
  next_lt : s.log.nextLsn < 2 ^ 64
  durable_lt : s.log.durableLsn < s.log.nextLsn
  appended_lt : ∀ lsn stop, (lsn, stop) ∈ s.appended →
    lsn < s.log.nextLsn ∧ stop ≤ s.log.file.content.length
  synced : ∀ lsn stop, (lsn, stop) ∈ s.appended → lsn ≤ s.log.durableLsn →
    stop ≤ s.log.file.synced
  synced_le : s.log.file.synced ≤ s.log.file.content.length

theorem wrapLsn_lt (n : Nat) : wrapLsn n < 2 ^ 64 := Nat.mod_lt _ (by decide)

theorem inv_freshlyOpened {data : Bytes} (positive : 0 < (freshlyOpened data).log.nextLsn) :
    Inv (freshlyOpened data) where
  next_lt := by
    simp only [freshlyOpened, LogManager.open]
    split
    · exact wrapLsn_lt _
    · decide
  durable_lt := positive
  appended_lt := by simp [freshlyOpened]
  synced := by simp [freshlyOpened]
  synced_le := by
    simp only [freshlyOpened, LogManager.open]
    split <;> simp [WalFile.ftruncate]

theorem record_some {s s' : State} {type : LogRecordType} {txnId : Nat} {objectId : Nat}
    {pageId : Nat} {payload : Bytes}
    (appended : s.record (s.log.appendRecord type txnId objectId pageId payload) = some s') :
    ∃ buf, buf = recordBuf s.log.nextLsn type txnId objectId pageId payload ∧
        s.log.file.content.length + buf.length ≤ maxFileSize ∧
        s'.log = { s.log with
          file := { s.log.file with content := s.log.file.content ++ buf }
          nextLsn := wrapLsn (s.log.nextLsn + 1) } ∧
        s'.appended = (s.log.nextLsn, (s.log.file.content ++ buf).length) :: s.appended ∧
        s'.returned = s.log.nextLsn :: s.returned := by
  cases result : s.log.appendRecord type txnId objectId pageId payload with
  | none => simp [State.record, result] at appended
  | some pair =>
    obtain ⟨log, lsn⟩ := pair
    obtain ⟨rfl, fits, rfl⟩ := LogManager.appendRecord_some result
    rw [result] at appended
    cases appended
    exact ⟨_, rfl, fits, rfl, rfl, rfl⟩

theorem inv_record {s s' : State} {type : LogRecordType} {txnId : Nat} {objectId : Nat}
    {pageId : Nat} {payload : Bytes} (inv : Inv s)
    (appended : s.record (s.log.appendRecord type txnId objectId pageId payload) = some s')
    (positive : 0 < s'.log.nextLsn) : Inv s' := by
  obtain ⟨buf, -, -, log, history, -⟩ := record_some appended
  have durable := inv.durable_lt
  have next : s'.log.nextLsn = s.log.nextLsn + 1 := by
    have small := inv.next_lt
    rw [log] at positive ⊢
    simp only [wrapLsn] at positive ⊢
    omega
  refine ⟨?_, ?_, ?_, ?_, ?_⟩
  · simp only [log]
    exact wrapLsn_lt _
  · rw [next]
    simp only [log]
    omega
  · intro lsn stop member
    rw [history] at member
    rw [next]
    simp only [log, List.length_append]
    cases member with
    | head => simp
    | tail _ older =>
      have bounds := inv.appended_lt lsn stop older
      omega
  · intro lsn stop member covered
    rw [history] at member
    simp only [log] at covered ⊢
    cases member with
    | head => omega
    | tail _ older => exact inv.synced lsn stop older covered
  · simp only [log, List.length_append]
    exact Nat.le_add_right_of_le inv.synced_le

theorem flush_some {s s' : State} {lsn : Nat} (flushed : step s (.flushThrough lsn) = some s') :
    lsn ∈ s.returned ∧ ∃ log, s.log.flushThrough lsn = some log ∧ s' = { s with log := log } := by
  simp only [step] at flushed
  split at flushed
  · rename_i known
    obtain ⟨log, result, rfl⟩ := Option.map_eq_some_iff.mp flushed
    exact ⟨known, log, result, rfl⟩
  · cases flushed

theorem inv_flush {s s' : State} {lsn : Nat} (inv : Inv s)
    (flushed : step s (.flushThrough lsn) = some s') (recent : lsn < s.log.nextLsn) : Inv s' := by
  obtain ⟨-, log, result, rfl⟩ := flush_some flushed
  have durable := inv.durable_lt
  obtain ⟨-, rfl⟩ | ⟨-, rfl⟩ := LogManager.flushThrough_cases result
  · exact inv
  · have last : s.log.lastLsn = s.log.nextLsn - 1 := wrapLsn_pred (Nat.zero_lt_of_lt durable) inv.next_lt
    refine ⟨inv.next_lt, ?_, inv.appended_lt, ?_, Nat.le_refl _⟩
    · simp only [last]
      omega
    · intro known stop member _
      exact (inv.appended_lt known stop member).2

theorem fsynced_flush {s s' : State} {lsn : Nat} (inv : Inv s)
    (flushed : step s (.flushThrough lsn) = some s') : s'.Fsynced lsn := by
  intro stop member
  obtain ⟨-, log, result, rfl⟩ := flush_some flushed
  obtain ⟨covered, rfl⟩ | ⟨-, rfl⟩ := LogManager.flushThrough_cases result
  · exact inv.synced lsn stop member covered
  · exact (inv.appended_lt lsn stop member).2

theorem inv_step {s s' : State} {call : Call} (inv : Inv s)
    (quiet : call = .checkpoint → s.log.durableLsn = 0)
    (recent : ∀ lsn, call = .flushThrough lsn → lsn < s.log.nextLsn)
    (positive : 0 < s'.log.nextLsn) (taken : step s call = some s') : Inv s' := by
  cases call with
  | appendBegin | appendUpdate | appendCommit | appendAbort => exact inv_record inv taken positive
  | flushThrough lsn => exact inv_flush inv taken (recent lsn rfl)
  | checkpoint =>
    cases taken
    refine ⟨by simp [LogManager.checkpoint], ?_, ?_, ?_, ?_⟩
    · simp [LogManager.checkpoint, quiet rfl]
    · simp
    · simp
    · simp [LogManager.checkpoint, WalFile.ftruncate]

def updates (txnId : Nat) (pages : List (PageKey × PageImage)) : List Call :=
  pages.map fun page => .appendUpdate txnId page.1.objectId page.1.pageId page.2

theorem inv_updates {s s' : State} {txnId : Nat} (pages : List (PageKey × PageImage)) (inv : Inv s)
    (lsns : s.log.nextLsn + pages.length < 2 ^ 64) (logged : run step s (updates txnId pages) = some s') :
    Inv s' ∧ s'.log.nextLsn = s.log.nextLsn + pages.length := by
  induction pages generalizing s with
  | nil =>
    cases logged
    exact ⟨inv, rfl⟩
  | cons page pages ih =>
    obtain ⟨next, first, rest⟩ := Option.bind_eq_some_iff.mp logged
    rw [List.length_cons] at lsns ⊢
    obtain ⟨buf, -, -, log, -, -⟩ := record_some first
    have next_eq : next.log.nextLsn = s.log.nextLsn + 1 := by
      rw [log]
      exact wrapLsn_of_lt (by omega)
    obtain ⟨invAfter, last⟩ := ih (inv_record inv first (by omega)) (by omega) rest
    exact ⟨invAfter, by omega⟩

theorem commit_some {s s' : State} {txnId stop : Nat} {pages : List (PageKey × PageImage)}
    (committed : commit s txnId pages = some (s', stop)) :
    ∃ logged withCommit, run step s (updates txnId pages) = some logged ∧
      step logged (.appendCommit txnId) = some withCommit ∧
      step withCommit (.flushThrough logged.log.nextLsn) = some s' ∧ stop = withCommit.log.file.content.length := by
  simp only [commit, Option.pure_def, Option.bind_eq_bind, Option.bind_eq_some_iff,
    Option.some.injEq, Prod.mk.injEq] at committed
  obtain ⟨logged, updates, withCommit, append, flushed, flush, rfl, rfl⟩ := committed
  exact ⟨logged, withCommit, updates, append, flush, rfl⟩

theorem commitForcesLog_of_inv {s : State} (inv : Inv s) (numbered : s.Numbered) : CommitForcesLog s := by
  intro txnId pages s' stop committed
  have lsns := numbered.commits txnId pages s' stop committed
  obtain ⟨logged, withCommit, updates, append, flush, rfl⟩ := commit_some committed
  obtain ⟨ready, -⟩ := inv_updates pages inv lsns updates
  obtain ⟨buf, -, -, log, -, -⟩ := record_some append
  obtain ⟨-, after, result, rfl⟩ := flush_some flush
  have behind := ready.durable_lt
  obtain ⟨covered, -⟩ | ⟨-, rfl⟩ := LogManager.flushThrough_cases result
  · rw [log] at covered
    exact absurd covered (Nat.not_le_of_lt behind)
  · exact Nat.le_refl _

theorem appendCommit_of_update {s next : State} {txnId objectId pageId : Nat} {image : PageImage} (txnId' : Nat)
    (appended : step s (.appendUpdate txnId objectId pageId image) = some next) :
    ∃ withCommit, step s (.appendCommit txnId') = some withCommit := by
  obtain ⟨_, rfl, fits, -⟩ := record_some appended
  have room : s.log.file.content.length +
      (recordBuf s.log.nextLsn .kCommit txnId' invalidObjectId invalidPageId []).length ≤ maxFileSize := by
    rw [recordBuf_length] at fits ⊢
    simp only [List.length_nil]
    omega
  simp only [step, LogManager.appendCommit, LogManager.appendRecord, WalFile.write, if_pos room]
  exact ⟨_, rfl⟩

theorem commit_fewer {s s' : State} {txnId stop : Nat} (front back : List (PageKey × PageImage))
    (committed : commit s txnId (front ++ back) = some (s', stop)) : ∃ logged withCommit,
      run step s (updates txnId front) = some logged ∧ step logged (.appendCommit txnId) = some withCommit := by
  obtain ⟨logged, withCommit, ran, append, -, -⟩ := commit_some committed
  cases back with
  | nil =>
    rw [List.append_nil] at ran
    exact ⟨logged, withCommit, ran, append⟩
  | cons page back =>
    rw [updates, List.map_append, run_append_some] at ran
    obtain ⟨early, first, rest⟩ := ran
    obtain ⟨next, appended, -⟩ := Option.bind_eq_some_iff.mp rest
    obtain ⟨withCommit, append⟩ := appendCommit_of_update txnId appended
    exact ⟨early, withCommit, first, append⟩

theorem nextLsn_updates {s s' : State} {txnId : Nat} {pages : List (PageKey × PageImage)}
    (small : s.log.nextLsn < 2 ^ 64) (logged : run step s (updates txnId pages) = some s') :
    s'.log.nextLsn = wrapLsn (s.log.nextLsn + pages.length) ∧ s'.log.file.synced = s.log.file.synced ∧
      s.log.file.content.length ≤ s'.log.file.content.length := by
  induction pages generalizing s with
  | nil =>
    cases logged
    exact ⟨(wrapLsn_of_lt small).symm, rfl, Nat.le_refl _⟩
  | cons page pages ih =>
    obtain ⟨next, first, rest⟩ := Option.bind_eq_some_iff.mp logged
    obtain ⟨buf, -, -, log, -, -⟩ := record_some first
    obtain ⟨lsn, synced, longer⟩ := ih (by rw [log]; exact wrapLsn_lt _) rest
    simp only [log, List.length_append] at lsn synced longer
    refine ⟨?_, synced, Nat.le_of_add_right_le longer⟩
    rw [lsn, List.length_cons]
    simp only [wrapLsn]
    omega

theorem numbered_of_sound {s : State} (inv : Inv s) (forces : CommitForcesLog s) : s.Numbered := by
  refine ⟨Nat.zero_lt_of_lt inv.durable_lt, fun txnId pages s' stop committed => ?_⟩
  by_contra many
  have small := inv.next_lt
  have split := List.take_append_drop (2 ^ 64 - s.log.nextLsn) pages
  rw [← split] at committed
  obtain ⟨logged, withCommit, ran, append⟩ := commit_fewer _ _ committed
  obtain ⟨lsn, synced, longer⟩ := nextLsn_updates small ran
  have zero : logged.log.nextLsn = 0 := by
    rw [lsn, List.length_take, wrapLsn]
    omega
  obtain ⟨buf, rfl, -, log, -, returned⟩ := record_some append
  have returns : step withCommit (.flushThrough logged.log.nextLsn) = some withCommit := by
    have known : logged.log.nextLsn ∈ withCommit.returned := by
      rw [returned]
      exact List.mem_cons_self
    rw [step, if_pos known, zero]
    rfl
  have ended : commit s txnId (pages.take (2 ^ 64 - s.log.nextLsn)) =
      some (withCommit, withCommit.log.file.content.length) := by
    simp only [commit, Option.pure_def, Option.bind_eq_bind, Option.bind_eq_some_iff, Option.some.injEq, Prod.mk.injEq]
    exact ⟨logged, ran, withCommit, append, withCommit, returns, rfl, rfl⟩
  have forced := forces _ _ _ _ ended
  have covered := inv.synced_le
  simp only [log, List.length_append, recordBuf_length, kHeaderSize] at forced
  omega

theorem inv_run {data : Bytes} {calls before after : List Call} {s : State}
    (quiet : NoFlushAcrossCheckpoint (freshlyOpened data) calls)
    (positive : ∀ before after s, calls = before ++ after → run step (freshlyOpened data) before = some s →
      0 < s.log.nextLsn)
    (split : calls = before ++ after) (reached : run step (freshlyOpened data) before = some s) : Inv s := by
  induction before using List.reverseRecOn generalizing after s with
  | nil =>
    cases reached
    exact inv_freshlyOpened (positive [] calls _ rfl rfl)
  | append_singleton before call ih =>
    obtain ⟨m, earlier, last⟩ := run_snoc.mp reached
    have decomposed : calls = before ++ call :: after := by simpa using split
    have condition := quiet before call after m decomposed earlier
    exact inv_step (ih decomposed earlier) condition.1
      (fun lsn same => condition.2 lsn same ⟨s, last⟩) (positive _ _ _ split reached) last

/-- A flush that returns has flushed exactly when no flush crosses a checkpoint and no LSN wraps around. -/
theorem flush_contract (data : Bytes) (calls : List Call) :
    FlushesWhatItReturns (freshlyOpened data) calls ↔
      NoFlushAcrossCheckpoint (freshlyOpened data) calls ∧ LsnsLast (freshlyOpened data) calls := by
  constructor
  · intro sound
    have positive : ∀ before after s, calls = before ++ after → run step (freshlyOpened data) before = some s →
        0 < s.log.nextLsn := fun before after s split reached =>
      Nat.zero_lt_of_lt (sound before after s split reached).1
    have quiet : NoFlushAcrossCheckpoint (freshlyOpened data) calls := by
      intro before call after s split reached
      constructor
      · rintro rfl
        have next : run step (freshlyOpened data) (before ++ [.checkpoint]) =
            some { s with log := s.log.checkpoint, appended := [] } :=
          run_snoc.mpr ⟨s, reached, rfl⟩
        have after := (sound (before ++ [.checkpoint]) after _ (by simp [split]) next).1
        simp only [LogManager.checkpoint] at after
        omega
      · rintro lsn rfl ⟨s', flushed⟩
        have next := run_snoc.mpr ⟨s, reached, flushed⟩
        have after := (sound (before ++ [.flushThrough lsn]) after _ (by simp [split]) next).1
        obtain ⟨-, log, result, rfl⟩ := flush_some flushed
        obtain ⟨covered, rfl⟩ | ⟨-, rfl⟩ := LogManager.flushThrough_cases result
        · simp only at after
          omega
        · simp only at after
          omega
    exact ⟨quiet, fun before after s split reached =>
      numbered_of_sound (inv_run quiet positive split reached) (sound before after s split reached).2.1⟩
  · rintro ⟨quiet, last⟩ before after s split reached
    have inv {before after s} := @inv_run data calls before after s quiet
      fun before after s split reached => (last before after s split reached).positive
    refine ⟨(inv split reached).durable_lt, commitForcesLog_of_inv (inv split reached) (last before after s split reached), ?_⟩
    rintro earlier lsn rfl
    obtain ⟨m, start, flushed⟩ := run_snoc.mp reached
    exact fsynced_flush (inv (by simpa using split) start) flushed

def flushAcrossCheckpoint : List Call :=
  [.appendCommit 1, .flushThrough 1, .checkpoint, .appendCommit 2, .flushThrough 1]

/-- After a checkpoint the second commit's flush returns with nothing of it on the disk. -/
theorem flush_after_checkpoint_skips_fsync :
    ∃ s, run step (freshlyOpened []) flushAcrossCheckpoint = some s ∧
      (1, 33) ∈ s.appended ∧ s.log.file.synced = 0 ∧ s.log.file.content.length = 33 ∧
      ¬ FlushesWhatItReturns (freshlyOpened []) flushAcrossCheckpoint := by
  obtain ⟨s, reached⟩ : ∃ s, run step (freshlyOpened []) flushAcrossCheckpoint = some s :=
    ⟨_, rfl⟩
  have history : (1, 33) ∈ s.appended ∧ s.log.file.synced = 0 ∧ s.log.file.content.length = 33 := by
    cases reached
    decide
  refine ⟨s, reached, history.1, history.2.1, history.2.2, fun sound => ?_⟩
  have fsynced := (sound flushAcrossCheckpoint [] s (by simp) reached).2.2
    [.appendCommit 1, .flushThrough 1, .checkpoint, .appendCommit 2] 1 rfl 33 history.1
  omega

end FlintDB.FlushContract
