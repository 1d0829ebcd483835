import Mathlib.Logic.Relation
import FlintDB.Lib.Run
import FlintDB.Txn.LockManager

set_option autoImplicit false

-- Any number of transactions, each on a thread of its own, in any order: a pass of AcquireLock's loop under mutex_, a
-- sleep in cv_.wait that ends when another transaction releases its locks or for no reason at all, and ReleaseAll.

namespace FlintDB

open Lib

-- Where the thread of a transaction is.
inductive LockThread
  | running
  -- in cv_.wait, with the request it has to make again
  | asleep (key : PageKey) (mode : LockMode)
  -- out of cv_.wait and about to make it again
  | notified (key : PageKey) (mode : LockMode)
  deriving DecidableEq

def LockThread.notify : LockThread → LockThread
  | asleep key mode => notified key mode
  | thread => thread

structure LockSystem where
  locks : LockManager := {}
  threads : Nat → LockThread := fun _ => .running

inductive LockEvent
  | request (txnId : Nat) (key : PageKey) (mode : LockMode)
  | recheck (txnId : Nat)
  | wake (txnId : Nat)
  | releaseAll (txnId : Nat)
  deriving DecidableEq

namespace LockSystem

def setThread (s : LockSystem) (txnId : Nat) (thread : LockThread) : LockSystem :=
  { s with threads := Function.update s.threads txnId thread }

-- One pass of AcquireLock's loop; a refused request throws and leaves the thread running.
def pass (s : LockSystem) (txnId : Nat) (key : PageKey) (mode : LockMode) : LockSystem :=
  match s.locks.acquireLock txnId key mode with
  | .granted next => { s.setThread txnId .running with locks := next }
  | .wait => s.setThread txnId (.asleep key mode)
  | .die => s.setThread txnId .running

-- A thread that sleeps in AcquireLock neither makes requests nor releases.
def step (s : LockSystem) : LockEvent → Option LockSystem
  | .request txnId key mode => if s.threads txnId = .running then some (s.pass txnId key mode) else none
  | .recheck txnId =>
    match s.threads txnId with
    | .notified key mode => some (s.pass txnId key mode)
    | _ => none
  | .wake txnId =>
    match s.threads txnId with
    | .asleep key mode => some (s.setThread txnId (.notified key mode))
    | _ => none
  | .releaseAll txnId =>
    if s.threads txnId = .running then
      -- ReleaseAll of a transaction without locks returns before notify_all
      if s.locks.heldByTxn txnId = ∅ then some s
      else some { locks := s.locks.releaseAll txnId, threads := fun other => (s.threads other).notify }
    else none

def start : LockSystem := {}

-- The request that an event puts to the lock table.
def requestOf (s : LockSystem) : LockEvent → Option (Nat × PageKey × LockMode)
  | .request txnId key mode => some (txnId, key, mode)
  | .recheck txnId =>
    match s.threads txnId with
    | .notified key mode => some (txnId, key, mode)
    | _ => none
  | _ => none

theorem step_cases {s s' : LockSystem} {event : LockEvent} (stepped : s.step event = some s') :
    (∃ txnId key mode, s.requestOf event = some (txnId, key, mode) ∧
      (∀ key mode, s.threads txnId ≠ .asleep key mode) ∧ event ≠ .releaseAll txnId ∧
      s' = s.pass txnId key mode) ∨
    (∃ txnId key mode, event = .wake txnId ∧ s.threads txnId = .asleep key mode ∧
      s' = s.setThread txnId (.notified key mode)) ∨
    (∃ txnId, event = .releaseAll txnId ∧ s.threads txnId = .running ∧
      ((s.locks.heldByTxn txnId = ∅ ∧ s' = s) ∨
        (s.locks.heldByTxn txnId ≠ ∅ ∧
          s' = { locks := s.locks.releaseAll txnId, threads := fun other => (s.threads other).notify }))) := by
  cases event with
  | request txnId key mode =>
    simp only [step] at stepped
    split at stepped
    · rename_i running
      exact .inl ⟨txnId, key, mode, rfl, by simp [running], by simp, (Option.some.inj stepped).symm⟩
    · cases stepped
  | recheck txnId =>
    cases thread : s.threads txnId with
    | notified key mode =>
      simp only [step, thread] at stepped
      exact .inl ⟨txnId, key, mode, by simp [requestOf, thread], by simp [thread], by simp,
        (Option.some.inj stepped).symm⟩
    | running => simp [step, thread] at stepped
    | asleep key mode => simp [step, thread] at stepped
  | wake txnId =>
    cases thread : s.threads txnId with
    | asleep key mode =>
      simp only [step, thread] at stepped
      exact .inr (.inl ⟨txnId, key, mode, rfl, thread, (Option.some.inj stepped).symm⟩)
    | running => simp [step, thread] at stepped
    | notified key mode => simp [step, thread] at stepped
  | releaseAll txnId =>
    simp only [step] at stepped
    split at stepped
    · rename_i running
      refine .inr (.inr ⟨txnId, rfl, running, ?_⟩)
      split at stepped
      · rename_i none
        exact .inl ⟨none, (Option.some.inj stepped).symm⟩
      · rename_i some
        exact .inr ⟨some, (Option.some.inj stepped).symm⟩
    · cases stepped

theorem pass_locks (s : LockSystem) (txnId : Nat) (key : PageKey) (mode : LockMode) :
    (∃ next, s.locks.acquireLock txnId key mode = .granted next ∧ (s.pass txnId key mode).locks = next) ∨
      ((∀ next, s.locks.acquireLock txnId key mode ≠ .granted next) ∧ (s.pass txnId key mode).locks = s.locks) := by
  rw [pass]
  cases s.locks.acquireLock txnId key mode with
  | granted next => exact .inl ⟨next, rfl, rfl⟩
  | wait => exact .inr ⟨by simp, rfl⟩
  | die => exact .inr ⟨by simp, rfl⟩

theorem step_locks {s s' : LockSystem} {event : LockEvent} (stepped : s.step event = some s') :
    (∃ txnId key mode next, s.requestOf event = some (txnId, key, mode) ∧ event ≠ .releaseAll txnId ∧
      s.locks.acquireLock txnId key mode = .granted next ∧ s'.locks = next) ∨
    (∃ txnId, event = .releaseAll txnId ∧ s.locks.heldByTxn txnId ≠ ∅ ∧ s'.locks = s.locks.releaseAll txnId) ∨
    s'.locks = s.locks := by
  rcases step_cases stepped with ⟨txnId, key, mode, requested, -, notRelease, rfl⟩ |
    ⟨txnId, key, mode, -, -, rfl⟩ | ⟨txnId, rfl, -, ⟨-, rfl⟩ | ⟨held, rfl⟩⟩
  · rcases s.pass_locks txnId key mode with ⟨next, granted, locks_eq⟩ | ⟨-, same⟩
    · exact .inl ⟨txnId, key, mode, next, requested, notRelease, granted, locks_eq⟩
    · exact .inr (.inr same)
  · exact .inr (.inr rfl)
  · exact .inr (.inr rfl)
  · exact .inr (.inl ⟨txnId, rfl, held, rfl⟩)

theorem step_consistent {s s' : LockSystem} {event : LockEvent} (consistent : s.locks.Consistent)
    (stepped : s.step event = some s') : s'.locks.Consistent := by
  rcases step_locks stepped with ⟨_, _, _, next, -, -, granted, locks_eq⟩ | ⟨_, -, -, locks_eq⟩ | locks_eq
  · rw [locks_eq]
    exact (LockManager.acquireLock_spec consistent granted).consistent
  · rw [locks_eq]
    exact LockManager.consistent_releaseAll consistent
  · rw [locks_eq]
    exact consistent

theorem run_consistent {s s' : LockSystem} {events : List LockEvent} (consistent : s.locks.Consistent)
    (reached : run step s events = some s') : s'.locks.Consistent :=
  run_induction (fun _ s => s.locks.Consistent) consistent
    (fun _ _ _ _ _ before stepped => step_consistent before stepped) reached

theorem step_keeps {s s' : LockSystem} {event : LockEvent} (consistent : s.locks.Consistent)
    (stepped : s.step event = some s') {txnId : Nat} (notReleased : event ≠ .releaseAll txnId) (key : PageKey) :
    (s.locks.HoldsExclusive txnId key → s'.locks.HoldsExclusive txnId key) ∧
      (s.locks.Holds txnId key → s'.locks.Holds txnId key) := by
  rcases step_locks stepped with ⟨_, _, _, next, -, -, granted, locks_eq⟩ | ⟨other, rfl, -, locks_eq⟩ | locks_eq
  · have spec := LockManager.acquireLock_spec consistent granted
    rw [locks_eq]
    exact ⟨fun held => (spec.exclusive_iff txnId key).mpr (.inl held),
      fun held => (spec.holds_iff txnId key).mpr (.inl held)⟩
  · have different : txnId ≠ other := fun same => notReleased (by rw [same])
    rw [locks_eq]
    exact ⟨fun held => (LockManager.holdsExclusive_releaseAll consistent txnId key).mpr ⟨different, held⟩,
      fun held => (LockManager.holds_releaseAll consistent txnId key).mpr ⟨different, held⟩⟩
  · rw [locks_eq]
    exact ⟨id, id⟩

theorem run_keeps {s s' : LockSystem} {events : List LockEvent} (consistent : s.locks.Consistent)
    (reached : run step s events = some s') {txnId : Nat} (notReleased : .releaseAll txnId ∉ events)
    (key : PageKey) :
    (s.locks.HoldsExclusive txnId key → s'.locks.HoldsExclusive txnId key) ∧
      (s.locks.Holds txnId key → s'.locks.Holds txnId key) := by
  refine run_induction (fun events s' => .releaseAll txnId ∉ events →
    (s.locks.HoldsExclusive txnId key → s'.locks.HoldsExclusive txnId key) ∧
      (s.locks.Holds txnId key → s'.locks.Holds txnId key)) (fun _ => ⟨id, id⟩) ?_ reached notReleased
  intro events middle event s' sofar ih stepped notReleased
  rw [List.mem_append, List.mem_singleton, not_or] at notReleased
  have before := ih notReleased.1
  have last := step_keeps (run_consistent consistent sofar) stepped (Ne.symm notReleased.2) key
  exact ⟨fun held => last.1 (before.1 held), fun held => last.2 (before.2 held)⟩

/-- What is true of the table and of everything that can happen to it from here. -/
structure Sound (s : LockSystem) : Prop where
  exclusive_alone : ∀ key entry txnId, s.locks.locks key = some entry →
    entry.exclusiveHolder = some txnId → entry.sharedHolders = ∅
  entry_nonempty : ∀ key entry, s.locks.locks key = some entry →
    entry.sharedHolders ≠ ∅ ∨ entry.exclusiveHolder ≠ none
  held_iff : ∀ txnId key, key ∈ s.locks.heldByTxn txnId ↔ s.locks.Holds txnId key
  -- granted, and kept until ReleaseAll
  grants : ∀ event s' txnId key mode next, s.step event = some s' →
    s.requestOf event = some (txnId, key, mode) → s.locks.acquireLock txnId key mode = .granted next →
    s'.locks.Holds txnId key ∧ (mode = .kExclusive → s'.locks.HoldsExclusive txnId key)
  keeps : ∀ events s' txnId key, run step s events = some s' → .releaseAll txnId ∉ events →
    (s.locks.HoldsExclusive txnId key → s'.locks.HoldsExclusive txnId key) ∧
      (s.locks.Holds txnId key → s'.locks.Holds txnId key)
  -- a request that throws
  refuses : ∀ event s' txnId key mode, s.step event = some s' → s.requestOf event = some (txnId, key, mode) →
    s.locks.acquireLock txnId key mode = .die →
    s'.locks = s.locks ∧ s'.threads txnId = .running ∧ ∀ other, other ≠ txnId → s'.threads other = s.threads other
  releases : ∀ txnId s', s.step (.releaseAll txnId) = some s' → ∀ other key,
    (s'.locks.HoldsExclusive other key ↔ other ≠ txnId ∧ s.locks.HoldsExclusive other key) ∧
      (s'.locks.HoldsShared other key ↔ other ≠ txnId ∧ s.locks.HoldsShared other key)

theorem step_request {s s' : LockSystem} {event : LockEvent} (stepped : s.step event = some s') {txnId : Nat}
    {key : PageKey} {mode : LockMode} (requested : s.requestOf event = some (txnId, key, mode)) :
    s' = s.pass txnId key mode := by
  rcases step_cases stepped with ⟨_, _, _, requested', -, -, rfl⟩ | ⟨_, _, _, rfl, -⟩ | ⟨_, rfl, -⟩
  · cases requested.symm.trans requested'
    rfl
  · cases requested
  · cases requested

theorem lock_table_sound (events : List LockEvent) (s : LockSystem) (reached : run step start events = some s) :
    s.Sound := by
  have consistent : s.locks.Consistent := run_consistent LockManager.consistent_empty reached
  refine ⟨consistent.exclusive_alone, consistent.entry_nonempty, consistent.held_iff, ?_, ?_, ?_, ?_⟩
  · intro event s' txnId key mode next stepped requested granted
    have spec := LockManager.acquireLock_spec consistent granted
    have locks_eq : s'.locks = next := by
      rw [step_request stepped requested, pass, granted]
    rw [locks_eq]
    refine ⟨(spec.holds_iff txnId key).mpr (.inr ⟨rfl, rfl⟩), fun exclusive => ?_⟩
    exact (spec.exclusive_iff txnId key).mpr (.inr ⟨rfl, rfl, exclusive⟩)
  · exact fun events s' txnId key onward notReleased => run_keeps consistent onward notReleased key
  · intro event s' txnId key mode stepped requested refused
    rw [step_request stepped requested, pass, refused]
    exact ⟨rfl, by simp [setThread], fun other different => by simp [setThread, different]⟩
  · intro txnId s' stepped other key
    rcases step_cases stepped with ⟨_, _, _, requested, -⟩ | ⟨_, _, _, isWake, -⟩ | ⟨_, same, -, released⟩
    · cases requested
    · cases isWake
    · cases same
      rcases released with ⟨none, rfl⟩ | ⟨-, rfl⟩
      · have holdsNothing : ∀ key, ¬ s'.locks.Holds txnId key := fun key held => by
          have member := (consistent.held_iff txnId key).mpr held
          simp [none] at member
        constructor
        · refine ⟨fun held => ⟨?_, held⟩, fun held => held.2⟩
          rintro rfl
          exact holdsNothing key (.inl held)
        · refine ⟨fun held => ⟨?_, held⟩, fun held => held.2⟩
          rintro rfl
          exact holdsNothing key (.inr held)
      · exact ⟨LockManager.holdsExclusive_releaseAll consistent other key,
          LockManager.holdsShared_releaseAll consistent other key⟩

theorem lock_table_sound_upgrade : ∃ s,
    run step start [.request 1 ⟨0, 0⟩ .kShared, .request 1 ⟨0, 0⟩ .kExclusive] = some s ∧ s.Sound ∧
      s.locks.HoldsExclusive 1 ⟨0, 0⟩ :=
  ⟨_, rfl, lock_table_sound [.request 1 ⟨0, 0⟩ .kShared, .request 1 ⟨0, 0⟩ .kExclusive] _ rfl, by decide⟩

end LockSystem

end FlintDB
