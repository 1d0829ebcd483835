import Mathlib.Logic.Function.Basic
import FlintDB.Lib.Program
import FlintDB.Lib.Run
import FlintDB.Txn.LockManager

set_option autoImplicit false

-- Transactions, each on a thread of its own, that make calls on data they share. A call is a program whose lock
-- requests go to the lock table; between any two of its actions every other thread may act.

namespace FlintDB

open Lib

inductive CallOutcome (ε R : Type)
  | returned (result : R)
  | threw (error : ε)
  -- TransactionAbortedException
  | refused

-- A thread asleep in cv_.wait is `calling` with its request still in front: it wakes for any reason or
-- none and makes the request again.
inductive CallThread (C σ ε R : Type)
  | idle (last : Option (C × CallOutcome ε R))
  -- Inside a call, with `steps` of its actions behind it.
  | calling (call : C) (steps : Nat) (rest : Program PageKey LockMode σ ε R)
  -- Commit or Abort has put the pages right and has yet to release the locks.
  | ending
  | ended

-- What the calls do, and what Commit or Abort does to the data.
structure CallInterface (C F σ ε R : Type) where
  program : Nat → C → Program PageKey LockMode σ ε R
  finish : Nat → F → σ → σ

structure CallSystem (C σ ε R : Type) where
  locks : LockManager := {}
  shared : σ
  threads : Nat → CallThread C σ ε R := fun _ => .idle none

inductive CallEvent (C F : Type)
  | call (txnId : Nat) (call : C)
  | step (txnId : Nat)
  | finish (txnId : Nat) (how : F)
  | releaseAll (txnId : Nat)

/-- The transaction whose thread takes the step. -/
def CallEvent.txnId {C F : Type} : CallEvent C F → Nat
  | call txnId _ | step txnId | finish txnId _ | releaseAll txnId => txnId

namespace CallSystem

variable {C F σ ε R : Type}

def setThread (s : CallSystem C σ ε R) (txnId : Nat) (thread : CallThread C σ ε R) : CallSystem C σ ε R :=
  { s with threads := Function.update s.threads txnId thread }

-- One pass of AcquireLock's loop.
def pass (s : CallSystem C σ ε R) (txnId : Nat) (call : C) (steps : Nat) (key : PageKey) (mode : LockMode)
    (next : Program PageKey LockMode σ ε R) : CallSystem C σ ε R :=
  match s.locks.acquireLock txnId key mode with
  | .granted locks => { s.setThread txnId (.calling call (steps + 1) next) with locks := locks }
  | .wait => s
  | .die => s.setThread txnId (.idle (some (call, .refused)))

-- The next action of a call.
def advance (s : CallSystem C σ ε R) (txnId : Nat) (call : C) (steps : Nat) :
    Program PageKey LockMode σ ε R → CallSystem C σ ε R
  | .done result => s.setThread txnId (.idle (some (call, .returned result)))
  | .throw error => s.setThread txnId (.idle (some (call, .threw error)))
  | .lock key mode next => s.pass txnId call steps key mode next
  | .atomic update next =>
    { s.setThread txnId (.calling call (steps + 1) (next s.shared)) with shared := update s.shared }

def step (interface : CallInterface C F σ ε R) (s : CallSystem C σ ε R) :
    CallEvent C F → Option (CallSystem C σ ε R)
  | .call txnId call =>
    match s.threads txnId with
    | .idle _ => some (s.setThread txnId (.calling call 0 (interface.program txnId call)))
    | _ => none
  | .step txnId =>
    match s.threads txnId with
    | .calling call steps rest => some (s.advance txnId call steps rest)
    | _ => none
  | .finish txnId how =>
    match s.threads txnId with
    | .idle _ => some { s.setThread txnId .ending with shared := interface.finish txnId how s.shared }
    | _ => none
  | .releaseAll txnId =>
    match s.threads txnId with
    | .ending => some { s.setThread txnId .ended with locks := s.locks.releaseAll txnId }
    | _ => none

/-- The call a thread is in, with the actions it has done and those it has left. -/
def Calling (s : CallSystem C σ ε R) (txnId : Nat) (call : C) (steps : Nat)
    (rest : Program PageKey LockMode σ ε R) : Prop :=
  s.threads txnId = .calling call steps rest

variable {interface : CallInterface C F σ ε R} {s s' : CallSystem C σ ε R} {event : CallEvent C F}

@[simp] theorem setThread_locks (txnId : Nat) (thread : CallThread C σ ε R) :
    (s.setThread txnId thread).locks = s.locks := rfl

@[simp] theorem setThread_shared (txnId : Nat) (thread : CallThread C σ ε R) :
    (s.setThread txnId thread).shared = s.shared := rfl

@[simp] theorem setThread_threads (txnId : Nat) (thread : CallThread C σ ε R) :
    (s.setThread txnId thread).threads = Function.update s.threads txnId thread := rfl

inductive Stepped (interface : CallInterface C F σ ε R) (s : CallSystem C σ ε R) :
    CallEvent C F → CallSystem C σ ε R → Prop
  | called {txnId : Nat} {last : Option (C × CallOutcome ε R)} (call : C) (idle : s.threads txnId = .idle last) :
      Stepped interface s (.call txnId call) (s.setThread txnId (.calling call 0 (interface.program txnId call)))
  | returned {txnId : Nat} {call : C} {steps : Nat} {result : R}
      (calling : s.Calling txnId call steps (.done result)) :
      Stepped interface s (.step txnId) (s.setThread txnId (.idle (some (call, .returned result))))
  | threw {txnId : Nat} {call : C} {steps : Nat} {error : ε}
      (calling : s.Calling txnId call steps (.throw error)) :
      Stepped interface s (.step txnId) (s.setThread txnId (.idle (some (call, .threw error))))
  | granted {txnId : Nat} {call : C} {steps : Nat} {key : PageKey} {mode : LockMode}
      {next : Program PageKey LockMode σ ε R} {locks : LockManager}
      (calling : s.Calling txnId call steps (.lock key mode next))
      (answer : s.locks.acquireLock txnId key mode = .granted locks) :
      Stepped interface s (.step txnId)
        { s.setThread txnId (.calling call (steps + 1) next) with locks := locks }
  | waits {txnId : Nat} {call : C} {steps : Nat} {key : PageKey} {mode : LockMode}
      {next : Program PageKey LockMode σ ε R} (calling : s.Calling txnId call steps (.lock key mode next))
      (answer : s.locks.acquireLock txnId key mode = .wait) : Stepped interface s (.step txnId) s
  | refused {txnId : Nat} {call : C} {steps : Nat} {key : PageKey} {mode : LockMode}
      {next : Program PageKey LockMode σ ε R} (calling : s.Calling txnId call steps (.lock key mode next))
      (answer : s.locks.acquireLock txnId key mode = .die) :
      Stepped interface s (.step txnId) (s.setThread txnId (.idle (some (call, .refused))))
  | acted {txnId : Nat} {call : C} {steps : Nat} {update : σ → σ}
      {next : σ → Program PageKey LockMode σ ε R} (calling : s.Calling txnId call steps (.atomic update next)) :
      Stepped interface s (.step txnId)
        { s.setThread txnId (.calling call (steps + 1) (next s.shared)) with shared := update s.shared }
  | finished {txnId : Nat} {last : Option (C × CallOutcome ε R)} (how : F) (idle : s.threads txnId = .idle last) :
      Stepped interface s (.finish txnId how)
        { s.setThread txnId .ending with shared := interface.finish txnId how s.shared }
  | released {txnId : Nat} (ending : s.threads txnId = .ending) :
      Stepped interface s (.releaseAll txnId)
        { s.setThread txnId .ended with locks := s.locks.releaseAll txnId }

theorem stepped (taken : step interface s event = some s') : Stepped interface s event s' := by
  cases event with
  | call txnId call =>
    simp only [step] at taken
    split at taken
    · rename_i last idle
      cases taken
      exact .called call idle
    · cases taken
  | step txnId =>
    simp only [step] at taken
    split at taken
    · rename_i call steps rest calling
      cases taken
      cases rest with
      | done result => exact .returned calling
      | throw error => exact .threw calling
      | lock key mode next =>
        simp only [advance, pass]
        split
        · rename_i locks answer
          exact .granted calling answer
        · rename_i answer
          exact .waits calling answer
        · rename_i answer
          exact .refused calling answer
      | atomic update next => exact .acted calling
    · cases taken
  | finish txnId how =>
    simp only [step] at taken
    split at taken
    · rename_i last idle
      cases taken
      exact .finished how idle
    · cases taken
  | releaseAll txnId =>
    simp only [step] at taken
    split at taken
    · rename_i ending
      cases taken
      exact .released ending
    · cases taken

theorem step_others (taken : step interface s event = some s') {other : Nat} (different : other ≠ event.txnId) :
    s'.threads other = s.threads other := by
  cases stepped taken with
  | waits calling answer => rfl
  | _ => exact Function.update_of_ne different _ _

theorem step_ending (taken : step interface s event = some s') (txnId : Nat) :
    (s'.threads txnId = .ending ∨ s'.threads txnId = .ended) ↔
      (s.threads txnId = .ending ∨ s.threads txnId = .ended) ∨ ∃ how, event = .finish txnId how := by
  by_cases own : txnId = event.txnId
  · subst own
    cases stepped taken with
    | called call idle => simp [CallEvent.txnId, idle]
    | returned calling => simp [CallEvent.txnId, show s.threads _ = _ from calling]
    | threw calling => simp [CallEvent.txnId, show s.threads _ = _ from calling]
    | granted calling answer => simp [CallEvent.txnId, show s.threads _ = _ from calling]
    | waits calling answer => simp [CallEvent.txnId, show s.threads _ = _ from calling]
    | refused calling answer => simp [CallEvent.txnId, show s.threads _ = _ from calling]
    | acted calling => simp [CallEvent.txnId, show s.threads _ = _ from calling]
    | finished how idle => simp [CallEvent.txnId]
    | released ending => simp [CallEvent.txnId, ending]
  · have notFinish : ¬ ∃ how, event = .finish txnId how := by
      rintro ⟨how, rfl⟩
      exact own rfl
    simp [step_others taken own, notFinish]

theorem step_ended (taken : step interface s event = some s') {txnId : Nat} (ended : s.threads txnId = .ended) :
    s'.threads txnId = .ended := by
  by_cases own : txnId = event.txnId
  · subst own
    cases stepped taken with
    | called call idle => cases idle.symm.trans ended
    | returned calling => cases Eq.trans (Eq.symm calling) ended
    | threw calling => cases Eq.trans (Eq.symm calling) ended
    | granted calling answer => cases Eq.trans (Eq.symm calling) ended
    | waits calling answer => exact ended
    | refused calling answer => cases Eq.trans (Eq.symm calling) ended
    | acted calling => cases Eq.trans (Eq.symm calling) ended
    | finished how idle => cases idle.symm.trans ended
    | released ending => cases ending.symm.trans ended
  · rw [step_others taken own, ended]

theorem step_consistent (consistent : s.locks.Consistent) (taken : step interface s event = some s') :
    s'.locks.Consistent := by
  cases stepped taken with
  | granted calling answer => exact (LockManager.acquireLock_spec consistent answer).consistent
  | released ending => exact LockManager.consistent_releaseAll consistent
  | _ => exact consistent

theorem step_keeps (consistent : s.locks.Consistent) (taken : step interface s event = some s') {txnId : Nat}
    (notReleased : event ≠ .releaseAll txnId) (key : PageKey) :
    (s.locks.HoldsExclusive txnId key → s'.locks.HoldsExclusive txnId key) ∧
      (s.locks.Holds txnId key → s'.locks.Holds txnId key) := by
  cases stepped taken with
  | granted calling answer =>
    have spec := LockManager.acquireLock_spec consistent answer
    exact ⟨fun held => (spec.exclusive_iff txnId key).mpr (.inl held),
      fun held => (spec.holds_iff txnId key).mpr (.inl held)⟩
  | @released other ending =>
    have different : txnId ≠ other := fun same => notReleased (by rw [same])
    exact ⟨fun held => (LockManager.holdsExclusive_releaseAll consistent txnId key).mpr ⟨different, held⟩,
      fun held => (LockManager.holds_releaseAll consistent txnId key).mpr ⟨different, held⟩⟩
  | _ => exact ⟨id, id⟩

theorem calling_cases (taken : step interface s event = some s') {txnId : Nat} {call : C} {steps : Nat}
    {rest : Program PageKey LockMode σ ε R} (after : s'.Calling txnId call steps rest) :
    (s.Calling txnId call steps rest ∧ event ≠ .releaseAll txnId) ∨
    (event = .call txnId call ∧ steps = 0 ∧ rest = interface.program txnId call) ∨
    (∃ before key mode, steps = before + 1 ∧ event = .step txnId ∧
      s.Calling txnId call before (.lock key mode rest) ∧
      s.locks.acquireLock txnId key mode = .granted s'.locks ∧ s'.shared = s.shared) ∨
    (∃ before update next, steps = before + 1 ∧ event = .step txnId ∧
      s.Calling txnId call before (.atomic update next) ∧ rest = next s.shared ∧
      s'.shared = update s.shared ∧ s'.locks = s.locks) := by
  have untouched : ∀ {other : Nat} {thread : CallThread C σ ε R},
      Function.update s.threads other thread txnId = .calling call steps rest →
      (∀ call steps rest, thread ≠ .calling call steps rest) →
      s.Calling txnId call steps rest ∧ txnId ≠ other := by
    intro other thread after notCalling
    by_cases same : txnId = other
    · subst same
      rw [Function.update_self] at after
      exact absurd after (notCalling _ _ _)
    · rw [Function.update_of_ne same] at after
      exact ⟨after, same⟩
  unfold Calling at after
  cases stepped taken with
  | @called other last call' idle =>
    by_cases same : txnId = other
    · subst same
      simp only [setThread_threads, Function.update_self, CallThread.calling.injEq] at after
      obtain ⟨rfl, rfl, rfl⟩ := after
      exact .inr (.inl ⟨rfl, rfl, rfl⟩)
    · simp only [setThread_threads, Function.update_of_ne same] at after
      exact .inl ⟨after, by simp⟩
  | returned calling => exact .inl ⟨(untouched after (by simp)).1, by simp⟩
  | threw calling => exact .inl ⟨(untouched after (by simp)).1, by simp⟩
  | @granted other call' before key mode next locks calling answer =>
    by_cases same : txnId = other
    · subst same
      simp only [setThread_threads, Function.update_self, CallThread.calling.injEq] at after
      obtain ⟨rfl, rfl, rfl⟩ := after
      exact .inr (.inr (.inl ⟨before, key, mode, rfl, rfl, calling, answer, rfl⟩))
    · simp only [setThread_threads, Function.update_of_ne same] at after
      exact .inl ⟨after, by simp⟩
  | waits calling answer => exact .inl ⟨after, by simp⟩
  | refused calling answer => exact .inl ⟨(untouched after (by simp)).1, by simp⟩
  | @acted other call' before update next calling =>
    by_cases same : txnId = other
    · subst same
      simp only [setThread_threads, Function.update_self, CallThread.calling.injEq] at after
      obtain ⟨rfl, rfl, rfl⟩ := after
      exact .inr (.inr (.inr ⟨before, update, next, rfl, rfl, calling, rfl, rfl, rfl⟩))
    · simp only [setThread_threads, Function.update_of_ne same] at after
      exact .inl ⟨after, by simp⟩
  | finished how idle => exact .inl ⟨(untouched after (by simp)).1, by simp⟩
  | released ending =>
    obtain ⟨calling, different⟩ := untouched after (by simp)
    exact .inl ⟨calling, by simpa [eq_comm] using different⟩

theorem calling_unmoved (taken : step interface s event = some s') {txnId : Nat} (own : txnId = event.txnId)
    {call : C} {steps : Nat} {rest : Program PageKey LockMode σ ε R} (before : s.Calling txnId call steps rest)
    (after : s'.Calling txnId call steps rest) : s' = s := by
  unfold Calling at before after
  have moved : ∀ {other : Nat} {thread : CallThread C σ ε R}, txnId = other →
      Function.update s.threads other thread txnId = .calling call steps rest → thread = .calling call steps rest := by
    rintro other thread rfl after
    rwa [Function.update_self] at after
  cases stepped taken with
  | called call' idle =>
    subst own
    cases idle.symm.trans before
  | returned calling => cases moved own after
  | threw calling => cases moved own after
  | granted calling answer =>
    subst own
    cases calling.symm.trans before
    cases moved rfl after
  | waits calling answer => rfl
  | refused calling answer => cases moved own after
  | acted calling =>
    subst own
    cases calling.symm.trans before
    have isThread := moved rfl after
    simp at isThread
  | finished how idle => cases moved own after
  | released ending => cases moved own after

end CallSystem

end FlintDB
