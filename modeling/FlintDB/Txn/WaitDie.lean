import FlintDB.Txn.LockSystem

set_option autoImplicit false

-- A transaction goes to sleep only behind younger ones, and as long as it is asleep those keep their locks. But an
-- older transaction may be granted a shared lock on the page it sleeps at, and then it waits for that one too.

namespace FlintDB

open Lib

def LockManager.Blocks (locks : LockManager) (holder : Nat) (key : PageKey) : LockMode → Prop
  | .kShared => locks.HoldsExclusive holder key
  | .kExclusive => locks.Holds holder key

theorem LockManager.Blocks.holds {locks : LockManager} {holder : Nat} {key : PageKey} {mode : LockMode}
    (blocks : locks.Blocks holder key mode) : locks.Holds holder key := by
  cases mode with
  | kShared => exact .inl blocks
  | kExclusive => exact blocks

theorem LockEntry.mem_otherHolders {entry : LockEntry} {txnId other : Nat} :
    other ∈ entry.otherHolders txnId ↔
      other ≠ txnId ∧ (entry.exclusiveHolder = some other ∨ other ∈ entry.sharedHolders) := by
  simp [otherHolders, Option.mem_def]

theorem LockManager.acquireLock_wait {locks : LockManager} {txnId : Nat} {key : PageKey} {mode : LockMode}
    (waits : locks.acquireLock txnId key mode = .wait) :
    (∃ holder, holder ≠ txnId ∧ locks.Blocks holder key mode) ∧
      ∀ holder, holder ≠ txnId → locks.Holds holder key → txnId < holder := by
  rw [acquireLock] at waits
  split at waits
  · cases waits
  · rename_i entry present
    split at waits
    · cases waits
    · split at waits
      · cases waits
      · split at waits
        · cases waits
        · rename_i conflict
          rw [not_not] at conflict
          split at waits
          · rename_i older
            refine ⟨?_, ?_⟩
            · have writer : entry.exclusiveHolder ≠ none ∧ entry.exclusiveHolder ≠ some txnId →
                  ∃ holder, holder ≠ txnId ∧ locks.HoldsExclusive holder key := by
                rintro ⟨held, notMine⟩
                obtain ⟨holder, isHolder⟩ := Option.ne_none_iff_exists'.mp held
                refine ⟨holder, ?_, entry, present, isHolder⟩
                rintro rfl
                exact notMine isHolder
              cases mode with
              | kShared => exact writer conflict
              | kExclusive =>
                rcases conflict with exclusive | ⟨holder, member, different⟩
                · obtain ⟨holder, different, held⟩ := writer exclusive
                  exact ⟨holder, different, .inl held⟩
                · exact ⟨holder, different, .inr ⟨entry, present, member⟩⟩
            · rintro holder different (⟨entry', present', isHolder⟩ | ⟨entry', present', member⟩)
              · cases present.symm.trans present'
                exact older holder (LockEntry.mem_otherHolders.mpr ⟨different, .inl isHolder⟩)
              · cases present.symm.trans present'
                exact older holder (LockEntry.mem_otherHolders.mpr ⟨different, .inr member⟩)
          · cases waits

namespace LockSystem

theorem pass_asleep {s : LockSystem} {txnId : Nat} {key : PageKey} {mode : LockMode} {sleeper : Nat}
    {key' : PageKey} {mode' : LockMode} (asleep : (s.pass txnId key mode).threads sleeper = .asleep key' mode') :
    (sleeper = txnId ∧ key' = key ∧ mode' = mode ∧ s.locks.acquireLock txnId key mode = .wait ∧
      (s.pass txnId key mode).locks = s.locks) ∨
      (sleeper ≠ txnId ∧ s.threads sleeper = .asleep key' mode') := by
  rw [pass] at asleep ⊢
  by_cases same : sleeper = txnId
  · subst same
    cases answer : s.locks.acquireLock sleeper key mode with
    | granted next => simp [answer, setThread] at asleep
    | wait =>
      simp only [answer, setThread, Function.update_self, LockThread.asleep.injEq] at asleep
      exact .inl ⟨rfl, asleep.1.symm, asleep.2.symm, rfl, rfl⟩
    | die => simp [answer, setThread] at asleep
  · refine .inr ⟨same, ?_⟩
    cases answer : s.locks.acquireLock txnId key mode <;> simpa [answer, setThread, same] using asleep

theorem notify_ne_asleep (thread : LockThread) (key : PageKey) (mode : LockMode) :
    thread.notify ≠ .asleep key mode := by
  cases thread <;> simp [LockThread.notify]

theorem step_asleep {s s' : LockSystem} {event : LockEvent} (stepped : s.step event = some s') {sleeper : Nat}
    {key : PageKey} {mode : LockMode} (asleep : s'.threads sleeper = .asleep key mode) :
    (s.locks.acquireLock sleeper key mode = .wait ∧ s'.locks = s.locks) ∨
      (s.threads sleeper = .asleep key mode ∧
        ((∃ txnId key' mode' next, s.requestOf event = some (txnId, key', mode') ∧ txnId ≠ sleeper ∧
          s.locks.acquireLock txnId key' mode' = .granted next ∧ s'.locks = next) ∨ s'.locks = s.locks)) := by
  rcases step_cases stepped with ⟨txnId, key', mode', requested, -, -, rfl⟩ | ⟨txnId, key', mode', -, -, rfl⟩ |
    ⟨txnId, -, -, ⟨-, rfl⟩ | ⟨-, rfl⟩⟩
  · rcases pass_asleep asleep with ⟨rfl, rfl, rfl, waits, same⟩ | ⟨different, before⟩
    · exact .inl ⟨waits, same⟩
    · refine .inr ⟨before, ?_⟩
      rcases s.pass_locks txnId key' mode' with ⟨next, granted, locks_eq⟩ | ⟨-, same⟩
      · exact .inl ⟨txnId, key', mode', next, requested, different.symm, granted, locks_eq⟩
      · exact .inr same
  · by_cases same : sleeper = txnId
    · subst same
      simp [setThread] at asleep
    · exact .inr ⟨by simpa [setThread, same] using asleep, .inr rfl⟩
  · exact .inr ⟨asleep, .inr rfl⟩
  · exact absurd asleep (notify_ne_asleep _ _ _)

structure SleepsBehindYounger (s : LockSystem) : Prop where
  consistent : s.locks.Consistent
  behind : ∀ sleeper key mode, s.threads sleeper = .asleep key mode →
    ∃ holder, sleeper < holder ∧ s.locks.Blocks holder key mode
  finite : ∃ bound, ∀ sleeper key mode, s.threads sleeper = .asleep key mode → sleeper < bound

theorem Blocks_granted {locks next : LockManager} {txnId : Nat} {key : PageKey} {mode : LockMode}
    (spec : locks.Granted next txnId key mode) {holder : Nat} {key' : PageKey} {mode' : LockMode}
    (blocks : locks.Blocks holder key' mode') : next.Blocks holder key' mode' := by
  cases mode' with
  | kShared => exact (spec.exclusive_iff holder key').mpr (.inl blocks)
  | kExclusive => exact (spec.holds_iff holder key').mpr (.inl blocks)

theorem SleepsBehindYounger.step {s s' : LockSystem} {event : LockEvent} (before : s.SleepsBehindYounger)
    (stepped : s.step event = some s') : s'.SleepsBehindYounger := by
  refine ⟨step_consistent before.consistent stepped, ?_, ?_⟩
  · intro sleeper key mode asleep
    rcases step_asleep stepped asleep with ⟨waits, same⟩ | ⟨asleepBefore, granted | same⟩
    · obtain ⟨⟨holder, different, blocks⟩, younger⟩ := LockManager.acquireLock_wait waits
      rw [same]
      exact ⟨holder, younger holder different blocks.holds, blocks⟩
    · obtain ⟨txnId, key', mode', next, -, -, granted, locks_eq⟩ := granted
      obtain ⟨holder, younger, blocks⟩ := before.behind sleeper key mode asleepBefore
      rw [locks_eq]
      exact ⟨holder, younger, Blocks_granted (LockManager.acquireLock_spec before.consistent granted) blocks⟩
    · rw [same]
      exact before.behind sleeper key mode asleepBefore
  · -- only the transaction that took the step can be new among the sleepers
    obtain ⟨bound, below⟩ := before.finite
    rcases step_cases stepped with ⟨txnId, key', mode', -, -, -, rfl⟩ | ⟨txnId, key', mode', -, -, rfl⟩ |
      ⟨txnId, -, -, ⟨-, rfl⟩ | ⟨-, rfl⟩⟩
    · refine ⟨max bound (txnId + 1), fun sleeper key mode asleep => ?_⟩
      rcases pass_asleep asleep with ⟨rfl, -⟩ | ⟨-, asleepBefore⟩
      · omega
      · have := below sleeper key mode asleepBefore
        omega
    · refine ⟨bound, fun sleeper key mode asleep => ?_⟩
      by_cases same : sleeper = txnId
      · subst same
        simp [setThread] at asleep
      · exact below sleeper key mode (by simpa [setThread, same] using asleep)
    · exact ⟨bound, below⟩
    · exact ⟨bound, fun sleeper key mode asleep => absurd asleep (notify_ne_asleep _ _ _)⟩

theorem start_sleepsBehindYounger : start.SleepsBehindYounger :=
  ⟨LockManager.consistent_empty, by simp [start], 0, by simp [start]⟩

theorem run_sleepsBehindYounger {events : List LockEvent} {s : LockSystem}
    (reached : run step start events = some s) : s.SleepsBehindYounger :=
  run_induction (fun _ s => s.SleepsBehindYounger) start_sleepsBehindYounger
    (fun _ _ _ _ _ before stepped => before.step stepped) reached

/-- Whenever a transaction sleeps, one that holds a lock does not. -/
theorem some_holder_is_awake (events : List LockEvent) (s : LockSystem)
    (reached : run step start events = some s) (sleeper : Nat) (key : PageKey) (mode : LockMode)
    (asleep : s.threads sleeper = .asleep key mode) :
    ∃ holder, (∃ key, s.locks.Holds holder key) ∧ ∀ key mode, s.threads holder ≠ .asleep key mode := by
  have invariant := run_sleepsBehindYounger reached
  obtain ⟨bound, below⟩ := invariant.finite
  -- among the sleepers, the distance to the bound decreases from each to the one it sleeps behind
  induction distance : bound - sleeper using Nat.strong_induction_on generalizing sleeper key mode with
  | _ distance ih =>
    obtain ⟨holder, younger, blocks⟩ := invariant.behind sleeper key mode asleep
    by_cases awake : ∀ key mode, s.threads holder ≠ .asleep key mode
    · exact ⟨holder, ⟨key, blocks.holds⟩, awake⟩
    · simp only [not_forall, not_not] at awake
      obtain ⟨key', mode', asleepToo⟩ := awake
      have holderBelow := below holder key' mode' asleepToo
      exact ih (bound - holder) (by omega) holder key' mode' asleepToo rfl

theorem some_holder_is_awake_writer : ∃ s,
    run step start [.request 2 ⟨0, 0⟩ .kExclusive, .request 1 ⟨0, 0⟩ .kShared] = some s ∧
      s.threads 1 = .asleep ⟨0, 0⟩ .kShared ∧
      ∃ holder, (∃ key, s.locks.Holds holder key) ∧ ∀ key mode, s.threads holder ≠ .asleep key mode :=
  ⟨_, rfl, rfl, some_holder_is_awake [.request 2 ⟨0, 0⟩ .kExclusive, .request 1 ⟨0, 0⟩ .kShared] _ rfl 1 ⟨0, 0⟩
    .kShared rfl⟩

def WaitsFor (s : LockSystem) (sleeper holder : Nat) : Prop :=
  ∃ key mode, s.threads sleeper = .asleep key mode ∧ holder ≠ sleeper ∧ s.locks.Blocks holder key mode

def Acyclic (s : LockSystem) : Prop := ∀ txnId, ¬ Relation.TransGen s.WaitsFor txnId txnId

/-- The event grants a shared lock to a transaction older than one that sleeps until it can have the page
to itself. -/
def Overtakes (s : LockSystem) (event : LockEvent) : Prop :=
  ∃ txnId key sleeper, s.requestOf event = some (txnId, key, .kShared) ∧
    (∃ next, s.locks.acquireLock txnId key .kShared = .granted next) ∧ ¬ s.locks.Holds txnId key ∧
    s.threads sleeper = .asleep key .kExclusive ∧ txnId < sleeper

theorem waitsFor_younger {events : List LockEvent} {s : LockSystem} (reached : run step start events = some s)
    (orderly : ∀ events' event s', events' ++ [event] <+: events → run step start events' = some s' →
      ¬ s'.Overtakes event) {sleeper holder : Nat} (waits : s.WaitsFor sleeper holder) : sleeper < holder := by
  refine run_induction (fun events s => (∀ events' event s', events' ++ [event] <+: events →
      run LockSystem.step start events' = some s' → ¬ s'.Overtakes event) →
    ∀ sleeper holder, s.WaitsFor sleeper holder → sleeper < holder) ?_ ?_ reached orderly sleeper holder waits
  · rintro - sleeper holder ⟨key, mode, asleep, -⟩
    cases asleep
  · rintro events s event s' sofar ih stepped orderly sleeper holder ⟨key, mode, asleep, different, blocks⟩
    have younger := ih (fun events' event' middle isEarlier =>
      orderly events' event' middle (isEarlier.trans (List.prefix_append _ _)))
    have invariant := run_sleepsBehindYounger sofar
    rcases step_asleep stepped asleep with ⟨waits, same⟩ | ⟨asleepBefore, granted | same⟩
    · rw [same] at blocks
      exact (LockManager.acquireLock_wait waits).2 holder different blocks.holds
    · obtain ⟨txnId, key', mode', next, requested, -, granted, locks_eq⟩ := granted
      have spec := LockManager.acquireLock_spec invariant.consistent granted
      by_cases blocked : s.locks.Blocks holder key mode
      · exact younger sleeper holder ⟨key, mode, asleepBefore, different, blocked⟩
      -- the holder stands in the way only since this grant
      · rw [locks_eq] at blocks
        have isNew : holder = txnId ∧ key = key' ∧ (mode = .kShared → mode' = .kExclusive) ∧
            (mode = .kExclusive → ¬ s.locks.Holds holder key) := by
          cases mode with
          | kShared =>
            rcases (spec.exclusive_iff holder key).mp blocks with before | ⟨isTxn, isKey, exclusive⟩
            · exact absurd before blocked
            · exact ⟨isTxn, isKey, fun _ => exclusive, by simp⟩
          | kExclusive =>
            rcases (spec.holds_iff holder key).mp blocks with before | ⟨isTxn, isKey⟩
            · exact absurd before blocked
            · exact ⟨isTxn, isKey, by simp, fun _ => blocked⟩
        obtain ⟨rfl, rfl, ofShared, ofExclusive⟩ := isNew
        obtain ⟨other, otherYounger, otherBlocks⟩ := invariant.behind sleeper key mode asleepBefore
        cases mode' with
        | kExclusive => exact spec.alone rfl other otherBlocks.holds ▸ otherYounger
        | kShared =>
          cases mode with
          | kShared => cases ofShared rfl
          | kExclusive =>
            have notOlder : ¬ holder < sleeper := fun older =>
              orderly events event s (List.prefix_refl _) sofar
                ⟨holder, key, sleeper, requested, ⟨next, granted⟩, ofExclusive rfl, asleepBefore, older⟩
            omega
    · rw [same] at blocks
      exact younger sleeper holder ⟨key, mode, asleepBefore, different, blocks⟩

/-- In a run in which nobody overtakes a sleeping transaction, no wait-for cycle forms. -/
theorem waitsFor_acyclic (events : List LockEvent)
    (orderly : ∀ events' event s, events' ++ [event] <+: events → run step start events' = some s →
      ¬ s.Overtakes event) :
    ∀ events' s, events' <+: events → run step start events' = some s → s.Acyclic := by
  intro events' s isEarlier reached txnId cycle
  have younger : ∀ sleeper holder, s.WaitsFor sleeper holder → sleeper < holder := fun sleeper holder waits =>
    waitsFor_younger reached (fun first event middle isFirst =>
      orderly first event middle (isFirst.trans isEarlier)) waits
  have increases : ∀ {first last}, Relation.TransGen s.WaitsFor first last → first < last := by
    intro first last path
    induction path with
    | single waits => exact younger _ _ waits
    | tail _ waits ih => exact Nat.lt_trans ih (younger _ _ waits)
  exact Nat.lt_irrefl txnId (increases cycle)

theorem waitsFor_acyclic_chain : ∃ s,
    run step start [.request 2 ⟨0, 0⟩ .kExclusive, .request 1 ⟨0, 0⟩ .kShared] = some s ∧ s.Acyclic := by
  refine ⟨_, rfl, waitsFor_acyclic [.request 2 ⟨0, 0⟩ .kExclusive, .request 1 ⟨0, 0⟩ .kShared] ?_ _ _
    (List.prefix_refl _) rfl⟩
  intro events' event s isEarlier reached overtakes
  obtain ⟨txnId, key, sleeper, -, -, -, asleep, -⟩ := overtakes
  rcases events' with _ | ⟨first, _ | ⟨second, rest⟩⟩
  · cases reached
    cases asleep
  · obtain ⟨rfl, -⟩ := List.cons_prefix_cons.mp isEarlier
    cases reached
    rcases pass_asleep asleep with ⟨-, -, -, waits, -⟩ | ⟨-, before⟩
    · cases waits
    · cases before
  · have length := isEarlier.length_le
    simp only [List.length_append, List.length_cons, List.length_nil] at length
    omega

/-- Transaction 2 sleeps until it can write page 0; 1 is granted a shared lock there, then sleeps behind 2. -/
theorem overtaken_sleeper_closes_cycle : ¬ ∀ events s, run step start events = some s → s.Acyclic := by
  intro acyclic
  apply acyclic [.request 2 ⟨0, 1⟩ .kExclusive, .request 3 ⟨0, 0⟩ .kShared, .request 2 ⟨0, 0⟩ .kExclusive,
    .request 1 ⟨0, 0⟩ .kShared, .request 1 ⟨0, 1⟩ .kExclusive] _ rfl 1
  apply Relation.TransGen.tail (b := 2)
  · exact .single ⟨⟨0, 1⟩, .kExclusive, rfl, by decide, .inl (by decide)⟩
  · exact ⟨⟨0, 0⟩, .kExclusive, rfl, by decide, .inr (by decide)⟩

end LockSystem

end FlintDB
