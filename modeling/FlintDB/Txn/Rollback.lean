import FlintDB.Txn.CrashAtomicity

set_option autoImplicit false

-- A page that nobody is writing is the same in the cache, in the data file and in the serial history. A data file
-- changes only where a transaction flushes its own pages behind its fsynced Commit record, so what Abort reads back
-- is the last committed content.

namespace FlintDB

open Lib

def leftBy (events : List Event) (key : PageKey) (txnId : Nat) : Option PageImage :=
  lastWrite (writesOf (accessesOf txnId events)) key

-- The content left by the last committed transaction that dirtied the page, or else what the data file had.
def lastCommitted (init : PageKey → PageImage) (events : List Event) (key : PageKey) : PageImage :=
  ((released events).reverse.findSome? (leftBy events key)).getD (init key)

theorem lastCommitted_eq (init : PageKey → PageImage) (events : List Event) :
    lastCommitted init events = committedStore init events := by
  funext key
  rw [committedStore, serialHistory, writesOf_flatMap, applyWrites_flatMap]
  rfl

namespace Event

-- The steps of Abort.
def isAbort : Event → Bool
  | abort _ | discardPage _ _ | appendAbort _ | abortRelease _ => true
  | _ => false

end Event

namespace Engine

-- The copy of the page in its buffer pool, if there is one.
def cached (s : Engine) (key : PageKey) : Option PageImage :=
  (s.pools key.objectId).bind fun pool => pool.pages key.pageId

-- Both copies of the page are the last committed one.
structure Settled (init : PageKey → PageImage) (events : List Event) (s : Engine) (key : PageKey) : Prop where
  cached : ∀ image, s.cached key = some image → image = lastCommitted init events key
  onDisk : s.onDisk key = lastCommitted init events key

-- The transaction has an fsynced Commit record and is about to flush its pages, this one among them.
def Forcing (events : List Event) (s : Engine) (txnId : Nat) (key : PageKey) : Prop :=
  ∃ txn pending, s.activeTxns txnId = some txn ∧ txn.phase = .flushing pending ∧ key ∈ txn.dirtiedPages ∧
    Durable [] (logEntries events) s.log.file.synced txnId

variable {init : PageKey → PageImage} {events : List Event} {event : Event} {s s' : Engine} {txnId : Nat}
  {txn : Transaction} {key : PageKey}

theorem content_of_cached {image : PageImage} (isCached : s.cached key = some image) : s.content key = image := by
  simp only [cached, Option.bind_eq_some_iff] at isCached
  obtain ⟨pool, found, present⟩ := isCached
  simp [content, found, BufferPool.content_of_cached present]

theorem settled_of_content (content : s.content key = committedStore init events key)
    (onDisk : s.onDisk key = committedStore init events key) : s.Settled init events key := by
  rw [← lastCommitted_eq] at content onDisk
  exact ⟨fun image isCached => (content_of_cached isCached).symm.trans content, onDisk⟩

theorem Serial.settled (serial : Serial init events s)
    (unlocked : ∀ txnId, s.activeTxns txnId ≠ none → ¬ s.locks.HoldsExclusive txnId key) :
    s.Settled init events key := by
  obtain ⟨content, onDisk⟩ := serial.clean key fun txnId txn active member =>
    unlocked txnId (by simp [active]) (serial.exclusive txnId txn active key member)
  exact settled_of_content content onDisk

theorem no_steal (serial : Serial init events s) (logged : Logged [] init events s) (key : PageKey) :
    s.onDisk key = lastCommitted init events key ∨ ∃ txnId, Forcing events s txnId key := by
  rw [lastCommitted_eq]
  by_cases clean : ∀ txnId txn, s.activeTxns txnId = some txn → key ∉ txn.dirtiedPages
  · exact .inl (serial.clean key clean).2
  · push Not at clean
    obtain ⟨txnId, txn, active, dirtied⟩ := clean
    have state := serial.dirty txnId txn active key dirtied
    have mine := logged.active txnId txn active
    cases phase : txn.phase with
    | flushing pending =>
      simp only [TxnLogged, phase] at mine
      exact .inr ⟨txnId, txn, pending, active, phase, dirtied, mine.1⟩
    | discarding pending =>
      rw [phase] at state
      exact .inl state.1
    | discarded =>
      rw [phase] at state
      exact .inl state.1
    | _ =>
      rw [phase] at state
      exact .inl state.2.1

theorem flushPageTorn_onDisk {pool next : BufferPool} {written : Nat} (found : s.pools key.objectId = some pool)
    (flushed : pool.flushPageTorn key.pageId written = some next) :
    (s.setPool key.objectId next).onDisk key = s.onDisk key ∨
      (s.setPool key.objectId next).onDisk key = .overwrite written (s.content key) (s.onDisk key) := by
  unfold BufferPool.flushPageTorn at flushed
  split at flushed
  · cases flushed
    exact .inl (by simp [onDisk, setPool, found])
  · rename_i image isCached
    split at flushed
    · split at flushed
      · cases flushed
      · rename_i disk written'
        cases flushed
        obtain ⟨within, rfl⟩ := DiskManager.writePage_some written'
        refine .inr ?_
        simp [onDisk, content, setPool, found, DiskManager.image_set _ _ _ _ within,
          BufferPool.content_of_cached isCached]
    · cases flushed
      exact .inl (by simp [onDisk, setPool, found])

theorem onDisk_flushed (serial : Serial init events s) (stepped : s.step event = some s') (key : PageKey) :
    s'.onDisk key = s.onDisk key ∨
      (∃ txn pending, s.activeTxns event.txnId = some txn ∧ txn.phase = .flushing pending ∧ key ∈ pending) ∧
        ∃ written, s'.onDisk key = .overwrite written (s.content key) (s.onDisk key) := by
  cases event with
  | lock txnId key' mode =>
    obtain ⟨txn, active, running, same | ⟨next, -, same⟩⟩ := step_lock stepped <;> subst same <;> exact .inl rfl
  | read txnId key' image =>
    obtain ⟨txn, pools, -, -, -, -, rfl, loads⟩ := step_read stepped
    exact .inl (congrFun loads.onDisk key)
  | write txnId key' image =>
    obtain ⟨txn, pools, -, -, -, rfl, touches, -, onDisk, -⟩ := step_write stepped
    exact .inl (touches.same_onDisk onDisk key)
  | allocate txnId key' =>
    obtain ⟨txn, pools, locks, -, -, -, rfl, touches, -, before, -, onDisk, -⟩ :=
      step_allocate serial.wellFormed stepped
    exact .inl (touches.same_onDisk (onDisk.trans before.symm) key)
  | appendUpdate txnId key' image =>
    obtain ⟨txn, pending, pools, log, lsn, -, -, -, -, -, rfl, loads, -⟩ := step_appendUpdate stepped
    exact .inl (congrFun loads.onDisk key)
  | flushPage txnId key' =>
    obtain ⟨txn, pending, pools, active, phase, member, rfl, touches, -, onDisk⟩ := step_flushPage stepped
    by_cases same : key = key'
    · subst same
      have state := serial.dirty txnId txn active key (serial.dirtied_of_pending active phase member)
      rw [phase] at state
      refine .inr ⟨⟨txn, pending, active, phase, member⟩, pageSize, ?_⟩
      rw [PageImage.overwrite_all, onDisk (state.2.1 member)]
    · exact .inl (touches.onDisk key same)
  | flushPageTorn txnId key' written =>
    obtain ⟨txn, pending, pools, active, phase, member, -, touches, -, -⟩ := step_flushPageTorn stepped
    by_cases same : key = key'
    · subst same
      simp only [step, Option.bind_eq_bind, Option.bind_eq_some_iff] at stepped
      obtain ⟨txn', active', pool, found, next, flushed, moved⟩ := stepped
      cases active.symm.trans active'
      simp only [phase, member, if_true, Option.some.injEq] at moved
      subst moved
      exact (flushPageTorn_onDisk found flushed).imp_right fun torn =>
        ⟨⟨txn, pending, active, phase, member⟩, written, torn⟩
    · exact .inl (touches.onDisk key same)
  | discardPage txnId key' =>
    obtain ⟨txn, pending, pools, -, -, -, rfl, touches, -, onDisk⟩ := step_discardPage stepped
    exact .inl (touches.same_onDisk onDisk key)
  | begin txnId =>
    obtain ⟨-, -, rfl⟩ := step_begin stepped
    exact .inl rfl
  | appendBegin txnId =>
    obtain ⟨txn, log, lsn, -, -, -, rfl⟩ := step_appendBegin stepped
    exact .inl rfl
  | commit txnId =>
    obtain ⟨txn, -, -, rfl⟩ := step_commit stepped
    exact .inl rfl
  | appendCommit txnId =>
    obtain ⟨txn, log, lsn, -, -, -, rfl⟩ := step_appendCommit stepped
    exact .inl rfl
  | flushBegin txnId =>
    obtain ⟨txn, lsn, -, -, -, -, rfl⟩ := step_flushBegin stepped
    exact .inl rfl
  | fsync txnId covered =>
    obtain ⟨flusher, -, -, -, -, rfl⟩ := step_fsync stepped
    exact .inl rfl
  | flushEnd txnId =>
    obtain ⟨flusher, -, -, -, rfl⟩ := step_flushEnd stepped
    exact .inl rfl
  | flushReturn txnId =>
    obtain ⟨txn, lsn, -, -, -, rfl⟩ := step_flushReturn stepped
    exact .inl rfl
  | commitRelease txnId =>
    obtain ⟨txn, -, -, rfl⟩ := step_commitRelease stepped
    exact .inl rfl
  | abort txnId =>
    obtain ⟨txn, -, -, rfl⟩ := step_abort stepped
    exact .inl rfl
  | appendAbort txnId =>
    obtain ⟨txn, log, lsn, -, -, -, rfl⟩ := step_appendAbort stepped
    exact .inl rfl
  | abortRelease txnId =>
    obtain ⟨txn, -, -, rfl⟩ := step_abortRelease stepped
    exact .inl rfl

theorem onDisk_changes (serial : Serial init events s) (logged : Logged [] init events s)
    (stepped : s.step event = some s') (key : PageKey) :
    s'.onDisk key = s.onDisk key ∨ (Forcing events s event.txnId key ∧
      ∃ written, s'.onDisk key = .overwrite written (s.content key) (s.onDisk key)) := by
  refine (onDisk_flushed serial stepped key).imp_right ?_
  rintro ⟨⟨txn, pending, active, phase, member⟩, changed⟩
  have mine := logged.active event.txnId txn active
  simp only [TxnLogged, phase] at mine
  exact ⟨⟨txn, pending, active, phase, serial.dirtied_of_pending active phase member, mine.1⟩, changed⟩

theorem abort_frame (serial : Serial init events s) (isAbort : event.isAbort = true)
    (active : s.activeTxns event.txnId = some txn) (stepped : s.step event = some s') (key : PageKey) :
    s'.onDisk key = s.onDisk key ∧ (key ∉ txn.dirtiedPages → s'.content key = s.content key) := by
  cases event with
  | abort txnId =>
    obtain ⟨txn, -, -, rfl⟩ := step_abort stepped
    exact ⟨rfl, fun _ => rfl⟩
  | discardPage txnId key' =>
    obtain ⟨txn', pending, pools, active', phase, member, rfl, touches, -, onDisk⟩ := step_discardPage stepped
    cases active.symm.trans active'
    refine ⟨touches.same_onDisk onDisk key, fun clean => touches.content key ?_⟩
    rintro rfl
    exact clean (serial.dirtied_of_pending active phase member)
  | appendAbort txnId =>
    obtain ⟨txn, log, lsn, -, -, -, rfl⟩ := step_appendAbort stepped
    exact ⟨rfl, fun _ => rfl⟩
  | abortRelease txnId =>
    obtain ⟨txn, -, -, rfl⟩ := step_abortRelease stepped
    exact ⟨rfl, fun _ => rfl⟩
  | _ => cases isAbort

theorem abort_restores (serial : Serial init events s) (active : s.activeTxns txnId = some txn)
    (stepped : s.step (.abortRelease txnId) = some s') (dirtied : key ∈ txn.dirtiedPages) :
    s'.Settled init events key ∧ s'.content key = lastCommitted init events key := by
  obtain ⟨txn', active', phase, rfl⟩ := step_abortRelease stepped
  cases active.symm.trans active'
  have state := serial.dirty txnId txn active key dirtied
  rw [phase] at state
  exact ⟨settled_of_content state.2 state.1, by rw [lastCommitted_eq]; exact state.2⟩

-- All of Abort, with the pages in the order in which it comes to them.
def abortEvents (txnId : Nat) (pages : List PageKey) : List Event :=
  .abort txnId :: (pages.map (.discardPage txnId) ++ [.appendAbort txnId, .abortRelease txnId])

theorem discardPage_enabled {pending : Finset PageKey} (wellFormed : s.WellFormed) (unflushed : s.Unflushed key)
    (active : s.activeTxns txnId = some txn) (phase : txn.phase = .discarding pending) (member : key ∈ pending) :
    ∃ s', s.step (.discardPage txnId key) = some s' := by
  obtain ⟨pool, found, isCached, -⟩ := unflushed
  have within : key.pageId < pool.disk.numPages := wellFormed _ _ found _ isCached
  obtain ⟨image, present⟩ := Option.ne_none_iff_exists'.mp isCached
  have discarded : ∃ next, pool.discardPage key.pageId = some next := by
    rw [BufferPool.discardPage, present, DiskManager.readPage]
    rw [DiskManager.numPages] at within
    simp [List.getElem?_eq_getElem within]
  obtain ⟨next, discarded⟩ := discarded
  refine Option.isSome_iff_exists.mp ?_
  simp [step, active, found, discarded, phase, member]

theorem discards {pages : List PageKey} {pending : Finset PageKey} (nodup : pages.Nodup) (wellFormed : s.WellFormed)
    (active : s.activeTxns txnId = some txn) (phase : txn.phase = .discarding pending)
    (covers : ∀ key, key ∈ pages ↔ key ∈ pending) (unflushed : ∀ key ∈ pages, s.Unflushed key) :
    ∃ s', run step s (pages.map (.discardPage txnId)) = some s' ∧
      s'.activeTxns txnId = some { txn with phase := .discarding ∅ } ∧ s'.log = s.log ∧
      ∀ key, s'.onDisk key = s.onDisk key ∧
        s'.content key = if key ∈ pages then s.onDisk key else s.content key := by
  induction pages generalizing s txn pending with
  | nil =>
    have empty : pending = ∅ := Finset.eq_empty_of_forall_notMem fun key member => by simpa using (covers key).mpr member
    subst empty
    exact ⟨s, rfl, by rw [active, ← phase], rfl, fun key => by simp⟩
  | cons first rest ih =>
    obtain ⟨notIn, nodup⟩ := List.nodup_cons.mp nodup
    obtain ⟨m, stepped⟩ := discardPage_enabled wellFormed (unflushed first List.mem_cons_self) active phase
      ((covers first).mp List.mem_cons_self)
    obtain ⟨txn', pending', pools, active', phase', -, m_eq, touches, content, onDisk⟩ := step_discardPage stepped
    cases active.symm.trans active'
    cases phase.symm.trans phase'
    have active'' : m.activeTxns txnId = some { txn with phase := .discarding (pending.erase first) } := by
      simp [m_eq, setTxn]
    have covers' : ∀ key, key ∈ rest ↔ key ∈ pending.erase first := by
      intro key
      rw [Finset.mem_erase, ← covers, List.mem_cons]
      constructor
      · intro member
        refine ⟨?_, .inr member⟩
        rintro rfl
        exact notIn member
      · rintro ⟨different, rfl | member⟩
        · exact absurd rfl different
        · exact member
    have unflushed' : ∀ key ∈ rest, m.Unflushed key := fun key member =>
      touches.unflushed key (fun same => notIn (same ▸ member)) (unflushed key (List.mem_cons_of_mem _ member))
    obtain ⟨s', onward, ended, log_eq, pages_eq⟩ :=
      ih nodup (touches.wellFormed wellFormed) active'' rfl covers' unflushed'
    refine ⟨s', by simp [run, stepped, onward], ended, by rw [log_eq, m_eq]; rfl, fun key => ?_⟩
    obtain ⟨onDisk', content'⟩ := pages_eq key
    refine ⟨onDisk'.trans (touches.same_onDisk onDisk key), ?_⟩
    rw [content', touches.same_onDisk onDisk key]
    by_cases here : key = first
    · subst here
      simp [notIn, content]
    · simp [here, touches.content key here]

theorem abort_runs (serial : Serial init events s) (active : s.activeTxns txnId = some txn)
    (running : txn.phase = .running) {pages : List PageKey} (nodup : pages.Nodup)
    (covers : ∀ key, key ∈ pages ↔ key ∈ txn.dirtiedPages) (logs : (s.log.appendAbort txnId).isSome) :
    ∃ s', run step s (abortEvents txnId pages) = some s' ∧ ∀ key, s'.onDisk key = s.onDisk key ∧
      s'.content key = if key ∈ txn.dirtiedPages then lastCommitted init events key else s.content key := by
  have states : ∀ key ∈ txn.dirtiedPages, s.onDisk key = committedStore init events key ∧ s.Unflushed key := by
    intro key dirtied
    have state := serial.dirty txnId txn active key dirtied
    rw [running] at state
    exact state.2
  have aborts : s.step (.abort txnId) = some (s.setTxn txnId { txn with phase := .discarding txn.dirtiedPages }) := by
    simp [step, active, running]
  have aborting : (s.setTxn txnId { txn with phase := .discarding txn.dirtiedPages }).activeTxns txnId =
      some { txn with phase := .discarding txn.dirtiedPages } := by
    simp [setTxn]
  have wellFormed : (s.setTxn txnId { txn with phase := .discarding txn.dirtiedPages }).WellFormed :=
    serial.wellFormed
  obtain ⟨m, discarded, ended, log_eq, pages_eq⟩ := discards nodup wellFormed aborting rfl covers
    fun key member => (states key ((covers key).mp member)).2
  obtain ⟨⟨log, lsn⟩, appended⟩ := Option.isSome_iff_exists.mp logs
  have logs' : m.step (.appendAbort txnId) =
      some { m.setTxn txnId { txn with phase := .discarded } with log := log } := by
    have same : m.log.appendAbort txnId = some (log, lsn) := by rw [log_eq]; exact appended
    simp [step, ended, same]
  refine ⟨finish { m.setTxn txnId { txn with phase := .discarded } with log := log } txnId, ?_, fun key => ?_⟩
  · rw [abortEvents, run, aborts, Option.bind_some, run_append, discarded, Option.bind_some, run, logs',
      Option.bind_some]
    simp [run, step, setTxn]
  · obtain ⟨onDisk, content⟩ := pages_eq key
    refine ⟨onDisk, content.trans ?_⟩
    simp only [covers]
    split
    · rw [lastCommitted_eq]
      exact (states key ‹_›).1
    · rfl

/-- What the buffer policy and Abort promise in a state of a run. -/
structure NoStealForce (init : PageKey → PageImage) (events : List Event) (s : Engine) : Prop where
  settled : ∀ key, (∀ txnId, s.activeTxns txnId ≠ none → ¬ s.locks.HoldsExclusive txnId key) →
    s.Settled init events key
  noSteal : ∀ key, s.onDisk key = lastCommitted init events key ∨ ∃ txnId, Forcing events s txnId key
  written : ∀ event s' key, s.step event = some s' → s'.onDisk key ≠ s.onDisk key →
    Forcing events s event.txnId key ∧
      ∃ written, s'.onDisk key = .overwrite written (s.content key) (s.onDisk key)
  abortFrame : ∀ event s' txn key, event.isAbort = true → s.activeTxns event.txnId = some txn →
    s.step event = some s' →
    s'.onDisk key = s.onDisk key ∧ (key ∉ txn.dirtiedPages → s'.content key = s.content key)
  abortRestores : ∀ txnId s' txn key, s.activeTxns txnId = some txn → s.step (.abortRelease txnId) = some s' →
    key ∈ txn.dirtiedPages → s'.Settled init events key ∧ s'.content key = lastCommitted init events key
  abortRuns : ∀ txnId txn pages, s.activeTxns txnId = some txn → txn.phase = .running → pages.Nodup →
    (∀ key, key ∈ pages ↔ key ∈ txn.dirtiedPages) → (s.log.appendAbort txnId).isSome →
    ∃ s', run step s (abortEvents txnId pages) = some s' ∧ ∀ key, s'.onDisk key = s.onDisk key ∧
      s'.content key = if key ∈ txn.dirtiedPages then lastCommitted init events key else s.content key

theorem no_steal_force (data : DataFiles) (events : List Event) (s : Engine)
    (reached : run step (start (LogManager.open []) data.file) events = some s) :
    NoStealForce (fileImage data.file) events s := by
  have serial := Serial.reached reached
  have emptyLog : OpenedLog [] (LogManager.open []) := openedLog_cut [] ⟨by simp, by simp, Nat.zero_le _⟩ 0
  have logged := Logged.reached emptyLog data.fits (by simp [Updated]) reached
  rw [onDisk_start] at serial logged
  refine ⟨fun key => serial.settled, no_steal serial logged, fun event s' key stepped changed => ?_,
    fun event s' txn key isAbort active stepped => abort_frame serial isAbort active stepped key,
    fun txnId s' txn key active stepped => abort_restores serial active stepped,
    fun txnId txn pages active running nodup covers logs => abort_runs serial active running nodup covers logs⟩
  exact (onDisk_changes serial logged stepped key).resolve_left changed

def overwrittenEvents : List Event :=
  [.begin 1, .appendBegin 1, .allocate 1 ⟨0, 0⟩, .commit 1, .appendUpdate 1 ⟨0, 0⟩ .zero, .appendCommit 1,
    .flushBegin 1, .fsync 1 4195, .flushEnd 1, .flushReturn 1, .flushPage 1 ⟨0, 0⟩, .commitRelease 1,
    .begin 2, .appendBegin 2, .lock 2 ⟨0, 0⟩ .kExclusive, .write 2 ⟨0, 0⟩ (.ofBytes [1])]

set_option maxRecDepth 100000 in
theorem no_steal_force_overwritten :
    ∃ s, run step (start (LogManager.open []) oneEmptyFile.file) overwrittenEvents = some s ∧
      NoStealForce (fileImage oneEmptyFile.file) overwrittenEvents s := by
  obtain ⟨s, reached⟩ := Option.isSome_iff_exists.mp (by decide +kernel :
    (run step (start (LogManager.open []) oneEmptyFile.file) overwrittenEvents).isSome = true)
  exact ⟨s, reached, no_steal_force oneEmptyFile overwrittenEvents s reached⟩

end Engine

end FlintDB
