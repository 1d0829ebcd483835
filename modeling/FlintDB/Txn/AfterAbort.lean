import FlintDB.Txn.Rollback

set_option autoImplicit false

-- Each page as it will be once a transaction has aborted. Nothing that the transaction does short of committing makes
-- a difference to that, and no other transaction does on a page it leaves alone.

namespace FlintDB

open Lib

namespace Event

/-- The page whose content the event changes, if it changes one. -/
def changed : Event → Option PageKey
  | write _ key _ | allocate _ key | discardPage _ key => some key
  | _ => none

def withoutCommit : Event → Bool
  | begin _ | appendBegin _ | lock .. | read .. | write .. | allocate .. | abort _ | discardPage .. | appendAbort _
  | abortRelease _ => true
  | _ => false

end Event

namespace Engine

variable {init : PageKey → PageImage} {events : List Event} {event : Event} {s s' : Engine} {txnId : Nat} {key : PageKey}

def afterAbort (s : Engine) (txnId : Nat) (key : PageKey) : PageImage :=
  match s.activeTxns txnId with
  | some txn => if key ∈ txn.dirtiedPages then s.onDisk key else s.content key
  | none => s.content key

theorem afterAbort_of_active {txn : Transaction} (active : s.activeTxns txnId = some txn) (key : PageKey) :
    s.afterAbort txnId key = if key ∈ txn.dirtiedPages then s.onDisk key else s.content key := by
  rw [afterAbort, active]

theorem afterAbort_of_ended (ended : s.activeTxns txnId = none) (key : PageKey) :
    s.afterAbort txnId key = s.content key := by
  rw [afterAbort, ended]

theorem afterAbort_congr {txn txn' : Transaction} (active : s.activeTxns txnId = some txn)
    (active' : s'.activeTxns txnId = some txn') (dirtied : key ∈ txn'.dirtiedPages ↔ key ∈ txn.dirtiedPages)
    (content : s'.content key = s.content key) (onDisk : s'.onDisk key = s.onDisk key) :
    s'.afterAbort txnId key = s.afterAbort txnId key := by
  rw [afterAbort_of_active active, afterAbort_of_active active', content, onDisk]
  simp only [dirtied]

theorem content_step (serial : Serial init events s) (stepped : s.step event = some s')
    (unchanged : event.changed ≠ some key) : s'.content key = s.content key := by
  have other : ∀ {key' : PageKey}, some key' ≠ some key → key ≠ key' := fun different same => different (same ▸ rfl)
  cases event with
  | lock txnId key' mode =>
    obtain ⟨txn, -, -, rfl | ⟨next, -, rfl⟩⟩ := step_lock stepped <;> rfl
  | read txnId key' image =>
    obtain ⟨txn, pools, -, -, -, -, rfl, loads⟩ := step_read stepped
    exact congrFun loads.content key
  | write txnId key' image =>
    obtain ⟨txn, pools, -, -, -, rfl, touches, -⟩ := step_write stepped
    exact touches.content key (other unchanged)
  | allocate txnId key' =>
    obtain ⟨txn, pools, locks, -, -, -, rfl, touches, -⟩ := step_allocate serial.wellFormed stepped
    exact touches.content key (other unchanged)
  | appendUpdate txnId key' image =>
    obtain ⟨txn, pending, pools, log, lsn, -, -, -, -, -, rfl, loads, -⟩ := step_appendUpdate stepped
    exact congrFun loads.content key
  | flushPage txnId key' =>
    obtain ⟨txn, pending, pools, -, -, -, rfl, touches, here, -⟩ := step_flushPage stepped
    by_cases same : key = key'
    · rw [same, here]
    · exact touches.content key same
  | flushPageTorn txnId key' written =>
    obtain ⟨txn, pending, pools, -, -, -, rfl, touches, here, -⟩ := step_flushPageTorn stepped
    by_cases same : key = key'
    · rw [same, here]
    · exact touches.content key same
  | discardPage txnId key' =>
    obtain ⟨txn, pending, pools, -, -, -, rfl, touches, -⟩ := step_discardPage stepped
    exact touches.content key (other unchanged)
  | begin txnId =>
    obtain ⟨-, -, rfl⟩ := step_begin stepped
    rfl
  | appendBegin txnId =>
    obtain ⟨txn, log, lsn, -, -, -, rfl⟩ := step_appendBegin stepped
    rfl
  | commit txnId =>
    obtain ⟨txn, -, -, rfl⟩ := step_commit stepped
    rfl
  | appendCommit txnId =>
    obtain ⟨txn, log, lsn, -, -, -, rfl⟩ := step_appendCommit stepped
    rfl
  | flushBegin txnId =>
    obtain ⟨txn, lsn, -, -, -, -, rfl⟩ := step_flushBegin stepped
    rfl
  | fsync txnId covered =>
    obtain ⟨flusher, -, -, -, -, rfl⟩ := step_fsync stepped
    rfl
  | flushEnd txnId =>
    obtain ⟨flusher, -, -, -, rfl⟩ := step_flushEnd stepped
    rfl
  | flushReturn txnId =>
    obtain ⟨txn, lsn, -, -, -, rfl⟩ := step_flushReturn stepped
    rfl
  | commitRelease txnId =>
    obtain ⟨txn, -, -, rfl⟩ := step_commitRelease stepped
    rfl
  | abort txnId =>
    obtain ⟨txn, -, -, rfl⟩ := step_abort stepped
    rfl
  | appendAbort txnId =>
    obtain ⟨txn, log, lsn, -, -, -, rfl⟩ := step_appendAbort stepped
    rfl
  | abortRelease txnId =>
    obtain ⟨txn, -, -, rfl⟩ := step_abortRelease stepped
    rfl

theorem afterAbort_other (serial : Serial init events s) (stepped : s.step event = some s')
    (different : event.txnId ≠ txnId) (unchanged : event.changed ≠ some key) :
    s'.afterAbort txnId key = s.afterAbort txnId key := by
  have content := content_step serial stepped unchanged
  have same := (moved serial.wellFormed serial.born stepped).others txnId (Ne.symm different)
  cases active : s.activeTxns txnId with
  | none => rw [afterAbort_of_ended active, afterAbort_of_ended (same.trans active), content]
  | some txn =>
    rw [afterAbort_of_active active, afterAbort_of_active (same.trans active), content]
    by_cases dirtied : key ∈ txn.dirtiedPages
    · rcases onDisk_flushed serial stepped key with onDisk | ⟨⟨other, pending, active', phase, member⟩, -⟩
      · rw [onDisk]
      · have held := serial.exclusive txnId txn active key dirtied
        exact absurd (serial.dirtied_of_pending active' phase member)
          (serial.not_dirtied_by_other (.inl held) active' different)
    · rw [if_neg dirtied, if_neg dirtied]

theorem afterAbort_of_held (serial : Serial init events s) {txn : Transaction} (active : s.activeTxns txnId = some txn)
    (held : s.locks.HoldsExclusive txnId key) : s.afterAbort txnId key = s.onDisk key := by
  rw [afterAbort_of_active active]
  by_cases dirtied : key ∈ txn.dirtiedPages
  · rw [if_pos dirtied]
  · obtain ⟨content, onDisk⟩ := serial.clean key fun other found present => by
      by_cases same : other = txnId
      · subst same
        cases active.symm.trans present
        exact dirtied
      · exact serial.not_dirtied_by_other (.inl held) present same
    rw [if_neg dirtied, content, onDisk]

theorem afterAbort_own (serial : Serial init events s) (stepped : s.step event = some s')
    (own : event.txnId = txnId) (aborting : event.withoutCommit) : s'.afterAbort txnId key = s.afterAbort txnId key := by
  subst own
  cases event with
  | begin txnId =>
    obtain ⟨next, -, rfl⟩ := step_begin stepped
    have unborn : s.activeTxns txnId = none := by
      by_contra present
      exact Nat.lt_irrefl _ (next ▸ serial.born txnId present)
    have active : (s.setTxn txnId {}).activeTxns txnId = some {} := by simp [setTxn]
    show (s.setTxn txnId {}).afterAbort txnId key = _
    rw [afterAbort_of_active active, Event.txnId, afterAbort_of_ended unborn]
    rfl
  | appendBegin txnId =>
    obtain ⟨txn, log, lsn, active, -, -, rfl⟩ := step_appendBegin stepped
    exact afterAbort_congr active (Function.update_self ..) Iff.rfl rfl rfl
  | lock txnId key' mode =>
    obtain ⟨txn, active, -, rfl | ⟨next, -, rfl⟩⟩ := step_lock stepped
    · rfl
    · exact afterAbort_congr active active Iff.rfl rfl rfl
  | read txnId key' image =>
    obtain ⟨txn, pools, active, -, -, -, rfl, loads⟩ := step_read stepped
    exact afterAbort_congr active active Iff.rfl (congrFun loads.content key) (congrFun loads.onDisk key)
  | write txnId key' image =>
    obtain ⟨txn, pools, active, -, held, rfl, touches, -, onDisk, -⟩ := step_write stepped
    by_cases same : key = key'
    · subst same
      rw [Event.txnId, afterAbort_of_held serial active held, afterAbort_of_active (Function.update_self ..),
        if_pos (Finset.mem_insert_self ..)]
      exact onDisk
    · exact afterAbort_congr active (Function.update_self ..) (by simp [same]) (touches.content key same)
        (touches.onDisk key same)
  | allocate txnId key' =>
    obtain ⟨txn, pools, locks, active, -, -, rfl, touches, content, onDisk, -, onDisk', -⟩ :=
      step_allocate serial.wellFormed stepped
    by_cases same : key = key'
    · subst same
      have before : s.afterAbort txnId key = .zero := by
        rw [afterAbort_of_active active, content, onDisk, ite_self]
      rw [Event.txnId, before, afterAbort_of_active (Function.update_self ..), if_pos (Finset.mem_insert_self ..)]
      exact onDisk'
    · exact afterAbort_congr active (Function.update_self ..) (by simp [same]) (touches.content key same)
        (touches.onDisk key same)
  | abort txnId =>
    obtain ⟨txn, active, -, rfl⟩ := step_abort stepped
    exact afterAbort_congr active (Function.update_self ..) Iff.rfl rfl rfl
  | discardPage txnId key' =>
    obtain ⟨txn, pending, pools, active, phase, member, rfl, touches, -, onDisk⟩ := step_discardPage stepped
    by_cases same : key = key'
    · subst same
      have dirtied := serial.dirtied_of_pending active phase member
      rw [Event.txnId, afterAbort_of_active active, afterAbort_of_active (Function.update_self ..), if_pos dirtied,
        if_pos dirtied]
      exact onDisk
    · exact afterAbort_congr active (Function.update_self ..) Iff.rfl (touches.content key same) (touches.onDisk key same)
  | appendAbort txnId =>
    obtain ⟨txn, log, lsn, active, -, -, rfl⟩ := step_appendAbort stepped
    exact afterAbort_congr active (Function.update_self ..) Iff.rfl rfl rfl
  | abortRelease txnId =>
    obtain ⟨txn, active, phase, rfl⟩ := step_abortRelease stepped
    rw [Event.txnId, afterAbort_of_ended (Function.update_self ..), afterAbort_of_active active]
    by_cases dirtied : key ∈ txn.dirtiedPages
    · have state := serial.dirty txnId txn active key dirtied
      rw [phase] at state
      rw [if_pos dirtied, state.1]
      exact state.2
    · rw [if_neg dirtied]
      rfl
  | _ => cases aborting

-- The transaction is active, and its statement may go on.
def Running (s : Engine) (txnId : Nat) : Prop := ∃ txn, s.activeTxns txnId = some txn ∧ txn.phase = .running

theorem goes_on (serial : Serial init events s) (active : s.activeTxns event.txnId ≠ none) (stepped : s.step event = some s')
    (notCommitted : ∀ txnId, event ≠ .commitRelease txnId) (notAborted : ∀ txnId, event ≠ .abortRelease txnId) :
    s'.activeTxns event.txnId ≠ none ∧
      (s.Running event.txnId → (∀ txnId, event ≠ .commit txnId) → (∀ txnId, event ≠ .abort txnId) →
        s'.Running event.txnId) := by
  have same : s'.activeTxns = s.activeTxns → s'.activeTxns event.txnId ≠ none ∧
      (s.Running event.txnId → (∀ txnId, event ≠ .commit txnId) → (∀ txnId, event ≠ .abort txnId) →
        s'.Running event.txnId) := by
    intro same
    rw [same]
    refine ⟨active, fun running _ _ => ?_⟩
    rwa [Running, same]
  have moved : ∀ {txn txn' : Transaction}, s.activeTxns event.txnId = some txn →
      s'.activeTxns = Function.update s.activeTxns event.txnId (some txn') →
      (txn.phase = .running → (∀ txnId, event ≠ .commit txnId) → (∀ txnId, event ≠ .abort txnId) →
        txn'.phase = .running) → s'.activeTxns event.txnId ≠ none ∧
      (s.Running event.txnId → (∀ txnId, event ≠ .commit txnId) → (∀ txnId, event ≠ .abort txnId) →
        s'.Running event.txnId) := by
    intro txn txn' active moves runs
    have now : s'.activeTxns event.txnId = some txn' := by rw [moves, Function.update_self]
    refine ⟨by simp [now], ?_⟩
    rintro ⟨before, isBefore, phase⟩ noCommit noAbort
    cases active.symm.trans isBefore
    exact ⟨txn', now, runs phase noCommit noAbort⟩
  cases event with
  | begin txnId =>
    obtain ⟨next, -, rfl⟩ := step_begin stepped
    exact absurd (serial.born txnId active) (Nat.not_lt.mpr next.ge)
  | appendBegin txnId =>
    obtain ⟨txn, log, lsn, active, phase, -, rfl⟩ := step_appendBegin stepped
    exact moved active rfl fun _ _ _ => rfl
  | lock txnId key mode =>
    obtain ⟨txn, -, -, rfl | ⟨next, -, rfl⟩⟩ := step_lock stepped
    · exact same rfl
    · exact same rfl
  | read txnId key image =>
    obtain ⟨txn, pools, -, -, -, -, rfl, -⟩ := step_read stepped
    exact same rfl
  | write txnId key image =>
    obtain ⟨txn, pools, active, phase, -, rfl, -⟩ := step_write stepped
    exact moved active rfl fun _ _ _ => phase
  | allocate txnId key =>
    obtain ⟨txn, pools, locks, active, phase, -, rfl, -⟩ := step_allocate serial.wellFormed stepped
    exact moved active rfl fun _ _ _ => phase
  | commit txnId =>
    obtain ⟨txn, active, -, rfl⟩ := step_commit stepped
    exact moved active rfl fun _ noCommit _ => absurd rfl (noCommit txnId)
  | appendUpdate txnId key image =>
    obtain ⟨txn, pending, pools, log, lsn, active, phase, -, -, -, rfl, -⟩ := step_appendUpdate stepped
    exact moved active rfl fun running _ _ => by cases phase.symm.trans running
  | appendCommit txnId =>
    obtain ⟨txn, log, lsn, active, phase, -, rfl⟩ := step_appendCommit stepped
    exact moved active rfl fun running _ _ => by cases phase.symm.trans running
  | flushBegin txnId =>
    obtain ⟨txn, lsn, -, -, -, -, rfl⟩ := step_flushBegin stepped
    exact same rfl
  | fsync txnId covered =>
    obtain ⟨flusher, -, -, -, -, rfl⟩ := step_fsync stepped
    exact same rfl
  | flushEnd txnId =>
    obtain ⟨flusher, -, -, -, rfl⟩ := step_flushEnd stepped
    exact same rfl
  | flushReturn txnId =>
    obtain ⟨txn, lsn, active, phase, -, rfl⟩ := step_flushReturn stepped
    exact moved active rfl fun running _ _ => by cases phase.symm.trans running
  | flushPage txnId key =>
    obtain ⟨txn, pending, pools, active, phase, -, rfl, -⟩ := step_flushPage stepped
    exact moved active rfl fun running _ _ => by cases phase.symm.trans running
  | flushPageTorn txnId key written =>
    obtain ⟨txn, pending, pools, -, -, -, rfl, -⟩ := step_flushPageTorn stepped
    exact same rfl
  | commitRelease txnId => exact absurd rfl (notCommitted txnId)
  | abort txnId =>
    obtain ⟨txn, active, -, rfl⟩ := step_abort stepped
    exact moved active rfl fun _ _ noAbort => absurd rfl (noAbort txnId)
  | discardPage txnId key =>
    obtain ⟨txn, pending, pools, active, phase, -, rfl, -⟩ := step_discardPage stepped
    exact moved active rfl fun running _ _ => by cases phase.symm.trans running
  | appendAbort txnId =>
    obtain ⟨txn, log, lsn, active, phase, -, rfl⟩ := step_appendAbort stepped
    exact moved active rfl fun running _ _ => by cases phase.symm.trans running
  | abortRelease txnId => exact absurd rfl (notAborted txnId)

theorem allocated_size (stepped : s.step (.allocate txnId key) = some s') :
    s.numPages key.objectId = some key.pageId ∧ s'.numPages key.objectId = some (key.pageId + 1) := by
  simp only [step, Option.bind_eq_bind, Option.bind_eq_some_iff, Option.ite_none_right_eq_some] at stepped
  obtain ⟨txn, -, pool, found, ⟨-, room, isNew⟩, answered⟩ := stepped
  rw [BufferPool.newPage_eq room] at isNew answered
  have before : s.numPages key.objectId = some key.pageId := by rw [numPages, found, isNew]; rfl
  split at answered
  · cases answered
    refine ⟨before, ?_⟩
    simp [numPages, setTxn, setPool, DiskManager.numPages, isNew]
  · cases answered
  · cases answered

theorem Grows.mono {size size' : Option Nat} (grows : Grows size size') {n : Nat} (before : size = some n) :
    ∃ n', size' = some n' ∧ n ≤ n' := by
  rcases grows with same | ⟨m, isBefore, -, isAfter⟩
  · exact ⟨n, same.trans before, Nat.le_refl n⟩
  · cases before.symm.trans isBefore
    exact ⟨n + 1, isAfter, Nat.le_succ n⟩

theorem Grows.none {size size' : Option Nat} (grows : Grows size size') (before : size = Option.none) :
    size' = Option.none := by
  rcases grows with same | ⟨m, isBefore, -, -⟩
  · exact same.trans before
  · cases before.symm.trans isBefore

theorem content_beyond (wellFormed : s.WellFormed) (beyond : ∀ n, s.numPages key.objectId = some n → n ≤ key.pageId) :
    s.content key = .zero := by
  cases found : s.pools key.objectId with
  | none => simp only [content, found]
  | some pool =>
    simp only [content, found]
    exact BufferPool.content_beyond (wellFormed _ _ found) (beyond _ (by rw [numPages, found]; rfl))

theorem Serial.quiet (wellFormed : s.WellFormed) (idle : ∀ txnId, s.activeTxns txnId = none)
    (consistent : s.locks.Consistent) (unlocked : ∀ txnId key, ¬ s.locks.Holds txnId key)
    (clean : s.content = s.onDisk) : Serial s.onDisk [] s where
  wellFormed := wellFormed
  consistent := consistent
  born txnId active := absurd (idle txnId) active
  holder txnId key held := absurd held (unlocked txnId key)
  ended := by simp [released]
  unborn := by simp [accessesOf]
  dirtied := by simp [idle]
  pending := by simp [idle]
  exclusive := by simp [idle]
  accessed := by simp [idle]
  reads := by simp [idle]
  clean key _ := by simp [committedStore, serialHistory, released, clean]
  dirty := by simp [idle]
  serial := by simp [serialHistory, released, Replays]

end Engine

end FlintDB
