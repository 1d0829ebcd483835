import Mathlib.Data.Finset.Option
import Mathlib.Logic.Function.Basic
import FlintDB.Common.Config

set_option autoImplicit false

namespace FlintDB

inductive LockMode
  | kShared
  | kExclusive
  deriving DecidableEq, Repr

structure LockEntry where
  sharedHolders : Finset Nat := ∅
  exclusiveHolder : Option Nat := none
  deriving DecidableEq

namespace LockEntry

def conflictsWithOthers (entry : LockEntry) (txnId : Nat) : LockMode → Prop
  | .kShared => entry.exclusiveHolder ≠ none ∧ entry.exclusiveHolder ≠ some txnId
  | .kExclusive =>
    (entry.exclusiveHolder ≠ none ∧ entry.exclusiveHolder ≠ some txnId) ∨
      ∃ holder ∈ entry.sharedHolders, holder ≠ txnId

instance (entry : LockEntry) (txnId : Nat) :
    (mode : LockMode) → Decidable (entry.conflictsWithOthers txnId mode)
  | .kShared => inferInstanceAs (Decidable
      (entry.exclusiveHolder ≠ none ∧ entry.exclusiveHolder ≠ some txnId))
  | .kExclusive => inferInstanceAs (Decidable
      ((entry.exclusiveHolder ≠ none ∧ entry.exclusiveHolder ≠ some txnId) ∨
        ∃ holder ∈ entry.sharedHolders, holder ≠ txnId))

def otherHolders (entry : LockEntry) (txnId : Nat) : Finset Nat :=
  (entry.exclusiveHolder.toFinset ∪ entry.sharedHolders).erase txnId

-- A shared holder that is granted the exclusive lock is upgraded in place.
def grant (entry : LockEntry) (txnId : Nat) : LockMode → LockEntry
  | .kExclusive =>
    { sharedHolders := entry.sharedHolders.erase txnId, exclusiveHolder := some txnId }
  | .kShared => { entry with sharedHolders := insert txnId entry.sharedHolders }

def release (entry : LockEntry) (txnId : Nat) : LockEntry where
  sharedHolders := entry.sharedHolders.erase txnId
  exclusiveHolder := if entry.exclusiveHolder = some txnId then none else entry.exclusiveHolder

end LockEntry

structure LockManager where
  locks : PageKey → Option LockEntry := fun _ => none
  heldByTxn : Nat → Finset PageKey := fun _ => ∅

-- One pass of AcquireLock's loop under mutex_: granted, asleep on cv_ until the next ReleaseAll, or
-- TransactionAbortedException.
inductive LockAnswer
  | granted (next : LockManager)
  | wait
  | die

namespace LockManager

def grant (locks : LockManager) (txnId : Nat) (key : PageKey) (entry : LockEntry)
    (mode : LockMode) : LockManager where
  locks := Function.update locks.locks key (some (entry.grant txnId mode))
  heldByTxn := Function.update locks.heldByTxn txnId (insert key (locks.heldByTxn txnId))

def acquireLock (locks : LockManager) (txnId : Nat) (key : PageKey) (mode : LockMode) :
    LockAnswer :=
  match locks.locks key with
  | none => .granted (locks.grant txnId key {} mode)
  | some entry =>
    if entry.exclusiveHolder = some txnId then .granted locks
    else if mode = .kShared ∧ txnId ∈ entry.sharedHolders then .granted locks
    else if ¬ entry.conflictsWithOthers txnId mode then
      .granted (locks.grant txnId key entry mode)
    else if ∀ holder ∈ entry.otherHolders txnId, txnId < holder then .wait
    else .die

def releaseAll (locks : LockManager) (txnId : Nat) : LockManager where
  locks key :=
    if key ∈ locks.heldByTxn txnId then
      match locks.locks key with
      | none => none
      | some entry =>
        if (entry.release txnId).sharedHolders = ∅ ∧
            (entry.release txnId).exclusiveHolder = none then none
        else some (entry.release txnId)
    else locks.locks key
  heldByTxn := Function.update locks.heldByTxn txnId ∅

def HoldsExclusive (locks : LockManager) (txnId : Nat) (key : PageKey) : Prop :=
  ∃ entry, locks.locks key = some entry ∧ entry.exclusiveHolder = some txnId

def HoldsShared (locks : LockManager) (txnId : Nat) (key : PageKey) : Prop :=
  ∃ entry, locks.locks key = some entry ∧ txnId ∈ entry.sharedHolders

def Holds (locks : LockManager) (txnId : Nat) (key : PageKey) : Prop :=
  locks.HoldsExclusive txnId key ∨ locks.HoldsShared txnId key

instance (locks : LockManager) (txnId : Nat) (key : PageKey) :
    Decidable (locks.HoldsExclusive txnId key) :=
  match h : locks.locks key with
  | none => isFalse (by simp [HoldsExclusive, h])
  | some entry => decidable_of_iff (entry.exclusiveHolder = some txnId) (by simp [HoldsExclusive, h])

instance (locks : LockManager) (txnId : Nat) (key : PageKey) :
    Decidable (locks.HoldsShared txnId key) :=
  match h : locks.locks key with
  | none => isFalse (by simp [HoldsShared, h])
  | some entry => decidable_of_iff (txnId ∈ entry.sharedHolders) (by simp [HoldsShared, h])

instance (locks : LockManager) (txnId : Nat) (key : PageKey) : Decidable (locks.Holds txnId key) :=
  inferInstanceAs (Decidable (locks.HoldsExclusive txnId key ∨ locks.HoldsShared txnId key))

-- The lock table and its per-transaction index agree, and an exclusive holder is alone.
structure Consistent (locks : LockManager) : Prop where
  exclusive_alone : ∀ key entry txnId, locks.locks key = some entry →
    entry.exclusiveHolder = some txnId → entry.sharedHolders = ∅
  entry_nonempty : ∀ key entry, locks.locks key = some entry →
    entry.sharedHolders ≠ ∅ ∨ entry.exclusiveHolder ≠ none
  held_iff : ∀ txnId key, key ∈ locks.heldByTxn txnId ↔ locks.Holds txnId key

theorem consistent_empty : Consistent {} := by
  refine ⟨?_, ?_, ?_⟩ <;> simp [Holds, HoldsExclusive, HoldsShared]

theorem exclusive_unique {locks : LockManager} (consistent : locks.Consistent) {txnId other : Nat}
    {key : PageKey} (exclusive : locks.HoldsExclusive txnId key) (held : locks.Holds other key) :
    other = txnId := by
  obtain ⟨entry, present, holder⟩ := exclusive
  rcases held with ⟨entry', present', holder'⟩ | ⟨entry', present', member⟩
  · rw [present] at present'
    cases present'
    rw [holder] at holder'
    exact (Option.some.inj holder').symm
  · rw [present] at present'
    cases present'
    rw [consistent.exclusive_alone key entry txnId present holder] at member
    simp at member

theorem acquireLock_granted {locks next : LockManager} {txnId : Nat} {key : PageKey}
    {mode : LockMode} (granted : locks.acquireLock txnId key mode = .granted next) :
    (next = locks ∧ (locks.HoldsExclusive txnId key ∨
        (mode = .kShared ∧ locks.HoldsShared txnId key))) ∨
      (∃ entry, (locks.locks key).getD {} = entry ∧ ¬ entry.conflictsWithOthers txnId mode ∧
        next = locks.grant txnId key entry mode) := by
  unfold acquireLock at granted
  split at granted
  · rename_i absent
    cases granted
    refine .inr ⟨{}, by simp [absent], ?_, rfl⟩
    cases mode <;> simp [LockEntry.conflictsWithOthers]
  · rename_i entry present
    split at granted
    · rename_i holder
      cases granted
      exact .inl ⟨rfl, .inl ⟨entry, present, holder⟩⟩
    · split at granted
      · rename_i shared
        cases granted
        exact .inl ⟨rfl, .inr ⟨shared.1, entry, present, shared.2⟩⟩
      · split at granted
        · rename_i free
          cases granted
          exact .inr ⟨entry, by simp [present], free, rfl⟩
        · split at granted <;> cases granted

section Grant

variable {locks : LockManager} {txnId : Nat} {key : PageKey} {entry : LockEntry} {mode : LockMode}

theorem holdsExclusive_grant (at_key : (locks.locks key).getD {} = entry)
    (free : ¬ entry.conflictsWithOthers txnId mode) (other : Nat) (key' : PageKey) :
    (locks.grant txnId key entry mode).HoldsExclusive other key' ↔
      locks.HoldsExclusive other key' ∨ (other = txnId ∧ key' = key ∧ mode = .kExclusive) := by
  by_cases same : key' = key
  · subst same
    cases present : locks.locks key' with
    | none =>
      rw [present, Option.getD_none] at at_key
      subst at_key
      cases mode <;> simp [HoldsExclusive, grant, LockEntry.grant, present, eq_comm]
    | some found =>
      rw [present, Option.getD_some] at at_key
      subst at_key
      cases mode with
      | kShared => simp [HoldsExclusive, grant, LockEntry.grant, present]
      | kExclusive =>
        simp only [LockEntry.conflictsWithOthers, ne_eq, not_or, not_and, not_not] at free
        simp only [HoldsExclusive, grant, LockEntry.grant, Function.update_self, present,
          Option.some.injEq, exists_eq_left', and_true]
        constructor
        · intro granted
          exact .inr granted.symm
        · rintro (held | granted)
          · have mine := free.1 (by simp [held])
            rw [held] at mine
            exact (Option.some.inj mine).symm
          · rw [granted]
  · simp [HoldsExclusive, grant, same]

theorem holds_grant (at_key : (locks.locks key).getD {} = entry)
    (free : ¬ entry.conflictsWithOthers txnId mode) (other : Nat) (key' : PageKey) :
    (locks.grant txnId key entry mode).Holds other key' ↔
      locks.Holds other key' ∨ (other = txnId ∧ key' = key) := by
  rw [Holds, holdsExclusive_grant at_key free]
  by_cases same : key' = key
  · subst same
    cases present : locks.locks key' with
    | none =>
      rw [present, Option.getD_none] at at_key
      subst at_key
      cases mode <;>
        simp [Holds, HoldsExclusive, HoldsShared, grant, LockEntry.grant, present]
    | some found =>
      rw [present, Option.getD_some] at at_key
      subst at_key
      cases mode with
      | kShared =>
        simp only [Holds, HoldsShared, grant, LockEntry.grant, Function.update_self,
          Option.some.injEq, exists_eq_left', present, Finset.mem_insert, and_true,
          reduceCtorEq, and_false, or_false]
        tauto
      | kExclusive =>
        simp only [LockEntry.conflictsWithOthers, ne_eq, not_or, not_exists, not_and,
          not_not] at free
        simp only [Holds, HoldsShared, grant, LockEntry.grant, Function.update_self,
          Option.some.injEq, exists_eq_left', present, Finset.mem_erase, and_true]
        constructor
        · rintro ((held | rfl) | ⟨-, shared⟩)
          · exact .inl (.inl held)
          · exact .inr rfl
          · exact .inl (.inr shared)
        · rintro ((held | shared) | rfl)
          · exact .inl (.inl held)
          · exact .inl (.inr (free.2 other shared))
          · exact .inl (.inr rfl)
  · simp [Holds, HoldsExclusive, HoldsShared, grant, same]

theorem consistent_grant (consistent : locks.Consistent) (at_key : (locks.locks key).getD {} = entry)
    (free : ¬ entry.conflictsWithOthers txnId mode)
    (notExclusive : ¬ locks.HoldsExclusive txnId key) :
    (locks.grant txnId key entry mode).Consistent := by
  refine ⟨?_, ?_, ?_⟩
  · intro key' entry' holder present exclusive
    by_cases same : key' = key
    · subst same
      simp only [grant, Function.update_self, Option.some.injEq] at present
      subst present
      cases mode with
      | kShared =>
        simp only [LockEntry.grant] at exclusive
        exfalso
        simp only [LockEntry.conflictsWithOthers, ne_eq, not_and, not_not] at free
        have mine := free (by simp [exclusive])
        cases present : locks.locks key' with
        | none => simp [present, ← at_key] at exclusive
        | some found =>
          rw [present, Option.getD_some] at at_key
          subst at_key
          exact notExclusive ⟨found, present, mine⟩
      | kExclusive =>
        simp only [LockEntry.conflictsWithOthers, ne_eq, not_or, not_exists, not_and,
          not_not] at free
        simp only [LockEntry.grant, Finset.erase_eq_empty_iff]
        by_cases none : entry.sharedHolders = ∅
        · exact .inl none
        · refine .inr (Finset.eq_singleton_iff_nonempty_unique_mem.mpr
            ⟨Finset.nonempty_iff_ne_empty.mpr none, free.2⟩)
    · simp only [grant, Function.update_of_ne same] at present
      exact consistent.exclusive_alone key' entry' holder present exclusive
  · intro key' entry' present
    by_cases same : key' = key
    · subst same
      simp only [grant, Function.update_self, Option.some.injEq] at present
      subst present
      cases mode <;> simp [LockEntry.grant]
    · simp only [grant, Function.update_of_ne same] at present
      exact consistent.entry_nonempty key' entry' present
  · intro other key'
    rw [holds_grant at_key free, ← consistent.held_iff]
    by_cases same : other = txnId
    · subst same
      simp [grant, or_comm]
    · simp [grant, same]

end Grant

structure Granted (locks next : LockManager) (txnId : Nat) (key : PageKey) (mode : LockMode) :
    Prop where
  consistent : next.Consistent
  exclusive_iff : ∀ other key', next.HoldsExclusive other key' ↔
    locks.HoldsExclusive other key' ∨ (other = txnId ∧ key' = key ∧ mode = .kExclusive)
  holds_iff : ∀ other key', next.Holds other key' ↔
    locks.Holds other key' ∨ (other = txnId ∧ key' = key)
  alone : mode = .kExclusive → ∀ other, locks.Holds other key → other = txnId
  no_writer : ∀ other, locks.HoldsExclusive other key → other = txnId

theorem acquireLock_of_exclusive {locks : LockManager} {txnId : Nat} {key : PageKey}
    (exclusive : locks.HoldsExclusive txnId key) (mode : LockMode) :
    locks.acquireLock txnId key mode = .granted locks := by
  obtain ⟨entry, present, holder⟩ := exclusive
  simp only [acquireLock, present, holder, if_true]

theorem acquireLock_spec {locks next : LockManager} {txnId : Nat} {key : PageKey} {mode : LockMode}
    (consistent : locks.Consistent) (granted : locks.acquireLock txnId key mode = .granted next) :
    locks.Granted next txnId key mode := by
  by_cases exclusive : locks.HoldsExclusive txnId key
  · rw [acquireLock_of_exclusive exclusive] at granted
    cases granted
    refine ⟨consistent, ?_, ?_, fun _ other held => exclusive_unique consistent exclusive held,
      fun other held => exclusive_unique consistent exclusive (.inl held)⟩
    · intro other key'
      constructor
      · exact .inl
      · rintro (held | ⟨rfl, rfl, -⟩)
        · exact held
        · exact exclusive
    · intro other key'
      constructor
      · exact .inl
      · rintro (held | ⟨rfl, rfl⟩)
        · exact held
        · exact .inl exclusive
  · rcases acquireLock_granted granted with ⟨rfl, held | ⟨rfl, shared⟩⟩ | ⟨entry, at_key, free, rfl⟩
    · exact absurd held exclusive
    · refine ⟨consistent, by simp, ?_, by simp, ?_⟩
      · intro other key'
        constructor
        · exact .inl
        · rintro (held | ⟨rfl, rfl⟩)
          · exact held
          · exact .inr shared
      · intro other held
        exact (exclusive_unique consistent held (.inr shared)).symm
    · refine ⟨consistent_grant consistent at_key free exclusive, holdsExclusive_grant at_key free,
        holds_grant at_key free, ?_, ?_⟩
      · rintro rfl other held
        simp only [LockEntry.conflictsWithOthers, ne_eq, not_or, not_exists, not_and,
          not_not] at free
        rcases held with ⟨found, present, holder⟩ | ⟨found, present, member⟩
        · rw [present, Option.getD_some] at at_key
          subst at_key
          have mine := free.1 (by simp [holder])
          rw [holder] at mine
          exact Option.some.inj mine
        · rw [present, Option.getD_some] at at_key
          subst at_key
          exact free.2 other member
      · rintro other ⟨found, present, holder⟩
        rw [present, Option.getD_some] at at_key
        subst at_key
        have mine : found.exclusiveHolder = some txnId := by
          cases mode with
          | kShared =>
            simp only [LockEntry.conflictsWithOthers, ne_eq, not_and, not_not] at free
            exact free (by simp [holder])
          | kExclusive =>
            simp only [LockEntry.conflictsWithOthers, ne_eq, not_or, not_and, not_not] at free
            exact free.1 (by simp [holder])
        rw [holder] at mine
        exact Option.some.inj mine

theorem acquireLock_of_free {locks : LockManager} {txnId : Nat} {key : PageKey} {mode : LockMode}
    (free : ¬ ((locks.locks key).getD {}).conflictsWithOthers txnId mode) :
    ∃ next, locks.acquireLock txnId key mode = .granted next := by
  rw [acquireLock]
  cases present : locks.locks key with
  | none => exact ⟨_, rfl⟩
  | some entry =>
    rw [present, Option.getD_some] at free
    simp only
    split
    · exact ⟨_, rfl⟩
    · split
      · exact ⟨_, rfl⟩
      · exact ⟨_, rfl⟩

theorem no_conflict_shared {locks : LockManager} {txnId : Nat} {key : PageKey}
    (noWriter : ∀ other, locks.HoldsExclusive other key → other = txnId) :
    ¬ ((locks.locks key).getD {}).conflictsWithOthers txnId .kShared := by
  rintro ⟨held, notMine⟩
  cases present : locks.locks key with
  | none => simp [present] at held
  | some entry =>
    simp only [present, Option.getD_some] at held notMine
    obtain ⟨other, holder⟩ := Option.ne_none_iff_exists'.mp held
    rw [noWriter other ⟨entry, present, holder⟩] at holder
    exact notMine holder

theorem no_conflict_alone {locks : LockManager} {txnId : Nat} {key : PageKey}
    (alone : ∀ other, locks.Holds other key → other = txnId) (mode : LockMode) :
    ¬ ((locks.locks key).getD {}).conflictsWithOthers txnId mode := by
  have shared := no_conflict_shared fun other exclusive => alone other (.inl exclusive)
  cases mode with
  | kShared => exact shared
  | kExclusive =>
    rintro (conflict | ⟨holder, member, notMine⟩)
    · exact shared conflict
    · cases present : locks.locks key with
      | none => simp [present] at member
      | some entry =>
        rw [present, Option.getD_some] at member
        exact notMine (alone holder (.inr ⟨entry, present, member⟩))

section ReleaseAll

variable {locks : LockManager} {txnId : Nat}

theorem releaseAll_locks (consistent : locks.Consistent) (key : PageKey) (entry : LockEntry) :
    (locks.releaseAll txnId).locks key = some entry ↔
      ∃ found, locks.locks key = some found ∧ entry = found.release txnId ∧
        (entry.sharedHolders ≠ ∅ ∨ entry.exclusiveHolder ≠ none) := by
  by_cases held : key ∈ locks.heldByTxn txnId
  · cases present : locks.locks key with
    | none => simp [releaseAll, held, present]
    | some found =>
      simp only [releaseAll, held, if_true, present, Option.some.injEq, exists_eq_left']
      split
      · rename_i empty
        simp only [reduceCtorEq, false_iff, not_and, not_or, not_not]
        rintro rfl
        exact empty
      · rename_i remaining
        simp only [Option.some.injEq]
        constructor
        · rintro rfl
          exact ⟨rfl, by tauto⟩
        · rintro ⟨rfl, -⟩
          rfl
  · have unheld := mt (consistent.held_iff txnId key).mpr held
    simp only [releaseAll, held, if_false]
    constructor
    · intro present
      have notExclusive : entry.exclusiveHolder ≠ some txnId := fun exclusive =>
        unheld (.inl ⟨entry, present, exclusive⟩)
      have notShared : txnId ∉ entry.sharedHolders := fun shared =>
        unheld (.inr ⟨entry, present, shared⟩)
      refine ⟨entry, present, ?_, consistent.entry_nonempty key entry present⟩
      cases entry
      simp_all [LockEntry.release]
    · rintro ⟨found, present, rfl, -⟩
      have notExclusive : found.exclusiveHolder ≠ some txnId := fun exclusive =>
        unheld (.inl ⟨found, present, exclusive⟩)
      have notShared : txnId ∉ found.sharedHolders := fun shared =>
        unheld (.inr ⟨found, present, shared⟩)
      cases found
      simp_all [LockEntry.release]

theorem holdsExclusive_releaseAll (consistent : locks.Consistent) (other : Nat) (key : PageKey) :
    (locks.releaseAll txnId).HoldsExclusive other key ↔
      other ≠ txnId ∧ locks.HoldsExclusive other key := by
  simp only [HoldsExclusive, releaseAll_locks consistent]
  constructor
  · rintro ⟨entry, ⟨found, present, rfl, -⟩, holder⟩
    simp only [LockEntry.release] at holder
    split at holder
    · cases holder
    · rename_i notMine
      refine ⟨?_, found, present, holder⟩
      rintro rfl
      exact notMine holder
  · rintro ⟨different, found, present, holder⟩
    have kept : (found.release txnId).exclusiveHolder = some other := by
      simp [LockEntry.release, holder, different]
    exact ⟨_, ⟨found, present, rfl, .inr (by simp [kept])⟩, kept⟩

theorem holdsShared_releaseAll (consistent : locks.Consistent) (other : Nat) (key : PageKey) :
    (locks.releaseAll txnId).HoldsShared other key ↔
      other ≠ txnId ∧ locks.HoldsShared other key := by
  simp only [HoldsShared, releaseAll_locks consistent]
  constructor
  · rintro ⟨entry, ⟨found, present, rfl, -⟩, member⟩
    simp only [LockEntry.release, Finset.mem_erase] at member
    exact ⟨member.1, found, present, member.2⟩
  · rintro ⟨different, found, present, member⟩
    have kept : other ∈ (found.release txnId).sharedHolders := by
      simp [LockEntry.release, member, different]
    exact ⟨_, ⟨found, present, rfl, .inl (Finset.ne_empty_of_mem kept)⟩, kept⟩

theorem holds_releaseAll (consistent : locks.Consistent) (other : Nat) (key : PageKey) :
    (locks.releaseAll txnId).Holds other key ↔ other ≠ txnId ∧ locks.Holds other key := by
  rw [Holds, Holds, holdsExclusive_releaseAll consistent, holdsShared_releaseAll consistent]
  tauto

theorem consistent_releaseAll (consistent : locks.Consistent) :
    (locks.releaseAll txnId).Consistent := by
  refine ⟨?_, ?_, ?_⟩
  · intro key entry holder present exclusive
    obtain ⟨found, found_at, rfl, -⟩ := (releaseAll_locks consistent key entry).mp present
    have before : found.exclusiveHolder = some holder := by
      simp only [LockEntry.release] at exclusive
      split at exclusive
      · cases exclusive
      · exact exclusive
    simp [LockEntry.release, consistent.exclusive_alone key found holder found_at before]
  · intro key entry present
    obtain ⟨found, -, -, nonempty⟩ := (releaseAll_locks consistent key entry).mp present
    exact nonempty
  · intro other key
    rw [holds_releaseAll consistent, ← consistent.held_iff]
    by_cases same : other = txnId
    · subst same
      simp [releaseAll]
    · simp [releaseAll, same]

end ReleaseAll

end LockManager

end FlintDB
