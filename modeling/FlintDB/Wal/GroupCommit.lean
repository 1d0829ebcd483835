import FlintDB.Lib.Run
import FlintDB.Wal.LogHistory

set_option autoImplicit false

-- Threads inside AppendRecord and FlushThrough, cut where another thread can come in between: at both mutexes, at
-- flush_cv_ and around the fsync, which FlushThrough makes with neither mutex held.

namespace FlintDB.GroupCommit

open Lib

-- One call of FlushThrough.
structure FlushCall where
  targetLsn : Nat
  -- the fsyncs of this call that have failed
  failures : Nat := 0
  deriving DecidableEq

inductive Phase
  | idle
  -- mutex_ held, the LSN taken, nothing written yet
  | appending (call : AppendCall) (lsn : Nat)
  -- about to lock flush_mutex_, on entry or woken from flush_cv_
  | locking (call : FlushCall)
  -- flush_mutex_ held, at the condition of the loop
  | checking (call : FlushCall)
  | waiting (call : FlushCall)
  -- flush_mutex_ held, flush_in_progress_ just set
  | claimed (call : FlushCall)
  | unlocked (call : FlushCall) (toCover : Nat)
  -- fsync has started with the LSNs up to `before` and this many bytes written
  | fsyncing (call : FlushCall) (toCover before length : Nat)
  | relocking (call : FlushCall) (toCover : Nat) (failed : Bool)
  -- flush_mutex_ held, flush_in_progress_ cleared, notify_all still to come
  | notifying (call : FlushCall) (failed : Bool)
  deriving DecidableEq

namespace Phase

def holdsMutex : Phase → Bool
  | appending _ _ => true
  | _ => false

def holdsFlushMutex : Phase → Bool
  | checking _ | claimed _ | notifying _ _ => true
  | _ => false

/-- Between setting and clearing flush_in_progress_. -/
def flushing : Phase → Bool
  | claimed _ | unlocked _ _ | fsyncing _ _ _ _ | relocking _ _ _ => true
  | _ => false

def notifies : Phase → Bool
  | notifying _ _ => true
  | _ => false

def waits : Phase → Bool
  | waiting _ => true
  | _ => false

-- notify_all.
def wake : Phase → Phase
  | waiting call => locking call
  | phase => phase

end Phase

-- How a call of FlushThrough ended.
structure FlushResult where
  call : FlushCall
  threw : Bool
  durableLsn : Nat
  deriving DecidableEq

structure State where
  log : LogManager
  phase : Nat → Phase := fun _ => .idle
  mutex : Option Nat := none
  flushMutex : Option Nat := none
  -- history: the thread that has set flush_in_progress_, the highest LSN whose bytes are written, the same at the start
  -- of each successful fsync, and the calls of FlushThrough that have ended
  flusher : Option Nat := none
  written : Nat
  syncs : List Nat := []
  results : List FlushResult := []

def State.enter (s : State) (thread : Nat) (phase : Phase) : State :=
  { s with phase := Function.update s.phase thread phase }

def State.finish (s : State) (thread : Nat) (call : FlushCall) (threw : Bool) : State :=
  { s with
    flushMutex := none
    phase := Function.update s.phase thread .idle
    results := { call, threw, durableLsn := s.log.durableLsn } :: s.results }

inductive Event
  | append (thread : Nat) (call : AppendCall)
  | write (thread : Nat)
  | flushThrough (thread : Nat) (lsn : Nat)
  -- the next step of a call of FlushThrough; the outcome is that of the fsync, if it is the end of one
  | proceed (thread : Nat) (synced : Bool)
  | wakeSpuriously (thread : Nat)
  deriving DecidableEq

-- The steps of FlushThrough.
def proceed (s : State) (thread : Nat) (synced : Bool) : Option State :=
  match s.phase thread with
  | .locking call =>
    if s.flushMutex = none then some ({ s with flushMutex := some thread }.enter thread (.checking call)) else none
  | .checking call =>
    if s.log.durableLsn < call.targetLsn then
      if s.log.flushInProgress then some ({ s with flushMutex := none }.enter thread (.waiting call))
      else some ({ s with
        log := { s.log with flushInProgress := true }
        flusher := some thread }.enter thread (.claimed call))
    else some (s.finish thread call false)
  | .claimed call =>
    -- NextLsn() locks mutex_
    if s.mutex = none then
      some ({ s with flushMutex := none }.enter thread (.unlocked call (max call.targetLsn s.log.lastLsn)))
    else none
  | .unlocked call toCover => some (s.enter thread (.fsyncing call toCover s.written s.log.file.content.length))
  | .fsyncing call toCover before length =>
    if synced then
      some ({ s with
        log := { s.log with file := { s.log.file with synced := max s.log.file.synced length } }
        syncs := before :: s.syncs }.enter thread (.relocking call toCover false))
    else some (s.enter thread (.relocking { call with failures := call.failures + 1 } toCover true))
  | .relocking call toCover failed =>
    if s.flushMutex = none then
      some ({ s with
        flushMutex := some thread
        flusher := none
        log := { s.log with
          flushInProgress := false
          durableLsn := if failed then s.log.durableLsn else max s.log.durableLsn toCover } }.enter thread
            (.notifying call failed))
    else none
  | .notifying call failed =>
    let woken := { s with phase := fun other => (s.phase other).wake }
    if failed then some (woken.finish thread call true) else some (woken.enter thread (.checking call))
  | _ => none

def step (s : State) : Event → Option State
  | .append thread call =>
    if s.phase thread = .idle ∧ s.mutex = none then
      some ({ s with mutex := some thread, log := { s.log with nextLsn := wrapLsn (s.log.nextLsn + 1) } }.enter thread
        (.appending call s.log.nextLsn))
    else none
  | .write thread =>
    match s.phase thread with
    | .appending call lsn =>
      (s.log.file.write (call.record lsn).encode).map fun file =>
        { s with mutex := none, written := max s.written lsn, log := { s.log with file := file } }.enter thread .idle
    | _ => none
  | .flushThrough thread lsn =>
    if s.phase thread = .idle ∧ lsn ≤ s.written then some (s.enter thread (.locking { targetLsn := lsn })) else none
  | .proceed thread synced => proceed s thread synced
  | .wakeSpuriously thread =>
    match s.phase thread with
    | .waiting call => some (s.enter thread (.locking call))
    | _ => none

/-- A LogManager that has just been opened: the records that are there are written. -/
def opened (data : Bytes) : State where
  log := LogManager.open data
  written := (LogManager.open data).lastLsn

-- A successful fsync started when this LSN was written.
def Covered (syncs : List Nat) (lsn : Nat) : Prop := ∃ before ∈ syncs, lsn ≤ before

/-- What a thread knows from where it is. -/
def Phase.Sound (last written : Nat) (syncs : List Nat) : Phase → Prop
  | idle => True
  | appending _ lsn => last ≤ lsn
  | locking call | checking call | waiting call | claimed call => call.targetLsn ≤ written
  | unlocked call toCover => call.targetLsn ≤ written ∧ toCover ≤ written
  | fsyncing call toCover before _ => call.targetLsn ≤ written ∧ toCover ≤ before ∧ before ≤ written
  | relocking call toCover failed =>
    call.targetLsn ≤ written ∧ (failed = false → Covered syncs toCover) ∧ (failed = true → 0 < call.failures)
  | notifying call failed => call.targetLsn ≤ written ∧ (failed = true → 0 < call.failures)

-- Who is in a phase of this kind is what the owner says.
def Owns (owner : Option Nat) (kind : Phase → Bool) (phase : Nat → Phase) : Prop :=
  ∀ thread, owner = some thread ↔ kind (phase thread) = true

structure Inv (s : State) : Prop where
  mutex : Owns s.mutex Phase.holdsMutex s.phase
  flushMutex : Owns s.flushMutex Phase.holdsFlushMutex s.phase
  flusher : Owns s.flusher Phase.flushing s.phase
  flag : s.log.flushInProgress = s.flusher.isSome
  lastLsn : s.mutex = none → s.log.lastLsn ≤ s.written
  sound : ∀ thread, (s.phase thread).Sound s.log.lastLsn s.written s.syncs
  durable : s.log.durableLsn = 0 ∨ Covered s.syncs s.log.durableLsn
  waiters : (∃ thread, (s.phase thread).waits = true) → s.flusher ≠ none ∨ ∃ other, (s.phase other).notifies = true
  results : ∀ result ∈ s.results, if result.threw then 0 < result.call.failures
    else result.call.targetLsn ≤ result.durableLsn

theorem inv_opened (data : Bytes) : Inv (opened data) := by
  refine ⟨fun _ => by simp [opened, Phase.holdsMutex], fun _ => by simp [opened, Phase.holdsFlushMutex],
    fun _ => by simp [opened, Phase.flushing], rfl, fun _ => Nat.le_refl _, fun _ => trivial, .inl rfl, ?_,
    by simp [opened]⟩
  simp [opened, Phase.waits]

section Owns

variable {owner : Option Nat} {kind : Phase → Bool} {phase : Nat → Phase}

theorem Owns.unique (owns : Owns owner kind phase) {first second : Nat} (isFirst : kind (phase first) = true)
    (isSecond : kind (phase second) = true) : first = second :=
  Option.some.inj (((owns first).mpr isFirst).symm.trans ((owns second).mpr isSecond))

theorem Owns.none (owns : Owns .none kind phase) (thread : Nat) : kind (phase thread) = false := by
  by_contra isKind
  cases (owns thread).mpr (Bool.not_eq_false _ ▸ isKind)

theorem Owns.keep (owns : Owns owner kind phase) {thread : Nat} {next : Phase} (same : kind next = kind (phase thread)) :
    Owns owner kind (Function.update phase thread next) := by
  intro other
  by_cases here : other = thread
  · rw [here, Function.update_self, same]
    exact owns thread
  · rw [Function.update_of_ne here]
    exact owns other

theorem Owns.take (owns : Owns .none kind phase) (thread : Nat) {next : Phase} (isKind : kind next = true) :
    Owns (some thread) kind (Function.update phase thread next) := by
  intro other
  by_cases here : other = thread
  · simp [here, isKind]
  · simp [Function.update_of_ne here, owns.none other, Ne.symm here]

theorem Owns.release (owns : Owns owner kind phase) {thread : Nat} (isKind : kind (phase thread) = true) {next : Phase}
    (notKind : kind next = false) : Owns .none kind (Function.update phase thread next) := by
  intro other
  by_cases here : other = thread
  · simp [here, notKind]
  · have different : kind (phase other) ≠ true := fun alsoKind => here (owns.unique alsoKind isKind)
    simp [Function.update_of_ne here, different]

theorem Owns.wake (owns : Owns owner kind phase) (same : ∀ phase : Phase, kind phase.wake = kind phase) :
    Owns owner kind fun thread => (phase thread).wake := by
  intro thread
  rw [same]
  exact owns thread

end Owns

theorem Covered.mono {syncs : List Nat} {lsn : Nat} (covered : Covered syncs lsn) (before : Nat) :
    Covered (before :: syncs) lsn := by
  obtain ⟨older, isOlder, le⟩ := covered
  exact ⟨older, List.mem_cons_of_mem _ isOlder, le⟩

theorem Phase.Sound.mono {last written : Nat} {syncs : List Nat} {phase : Phase}
    (sound : phase.Sound last written syncs) (before : Nat) : phase.Sound last written (before :: syncs) := by
  cases phase with
  | relocking call toCover failed => exact ⟨sound.1, fun succeeded => (sound.2.1 succeeded).mono before, sound.2.2⟩
  | _ => exact sound

theorem Phase.Sound.written {last next written later : Nat} {syncs : List Nat} {phase : Phase}
    (sound : phase.Sound last written syncs) (noAppend : phase.holdsMutex = false) (le : written ≤ later) :
    phase.Sound next later syncs := by
  cases phase with
  | idle => trivial
  | appending => cases noAppend
  | locking | checking | waiting | claimed => exact Nat.le_trans sound le
  | unlocked => exact ⟨Nat.le_trans sound.1 le, Nat.le_trans sound.2 le⟩
  | fsyncing => exact ⟨Nat.le_trans sound.1 le, sound.2.1, Nat.le_trans sound.2.2 le⟩
  | relocking | notifying => exact ⟨Nat.le_trans sound.1 le, sound.2⟩

theorem Phase.Sound.wake {last written : Nat} {syncs : List Nat} {phase : Phase}
    (sound : phase.Sound last written syncs) : phase.wake.Sound last written syncs := by
  cases phase with
  | _ => exact sound

theorem sound_update {last written : Nat} {syncs : List Nat} {phase : Nat → Phase}
    (sound : ∀ thread, (phase thread).Sound last written syncs) (thread : Nat) {next : Phase}
    (nextSound : next.Sound last written syncs) (other : Nat) :
    (Function.update phase thread next other).Sound last written syncs := by
  by_cases here : other = thread
  · rwa [here, Function.update_self]
  · rw [Function.update_of_ne here]
    exact sound other

theorem waits_update {phase : Nat → Phase} {thread : Nat} {next : Phase} (notWaiting : next.waits = false)
    (waiting : ∃ other, (Function.update phase thread next other).waits = true) :
    ∃ other, (phase other).waits = true := by
  obtain ⟨other, waits⟩ := waiting
  by_cases here : other = thread
  · rw [here, Function.update_self, notWaiting] at waits
    cases waits
  · rw [Function.update_of_ne here] at waits
    exact ⟨other, waits⟩

theorem notifies_update {phase : Nat → Phase} {thread : Nat} (next : Phase) (here : (phase thread).notifies = false)
    (notifies : ∃ other, (phase other).notifies = true) :
    ∃ other, (Function.update phase thread next other).notifies = true := by
  obtain ⟨other, isNotifying⟩ := notifies
  refine ⟨other, ?_⟩
  rwa [Function.update_of_ne fun same => ?_]
  rw [same, here] at isNotifying
  cases isNotifying

section Steps

variable {s s' : State} {thread : Nat} (inv : Inv s)
include inv

theorem inv_append {call : AppendCall} (taken : step s (.append thread call) = some s') : Inv s' := by
  simp only [step] at taken
  split at taken
  · rename_i free
    cases taken
    have noMutex : Owns none Phase.holdsMutex s.phase := free.2 ▸ inv.mutex
    refine ⟨noMutex.take thread rfl, inv.flushMutex.keep (by rw [free.1]; rfl), inv.flusher.keep (by rw [free.1]; rfl),
      inv.flag, (fun locked => by cases locked), fun other => ?_, inv.durable, fun waiting => ?_, inv.results⟩
    · by_cases same : other = thread
      · simp only [State.enter, same, Function.update_self, Phase.Sound, LogManager.lastLsn, wrapLsn]
        omega
      · simp only [State.enter, Function.update_of_ne same]
        exact (inv.sound other).written (noMutex.none other) (Nat.le_refl _)
    · exact (inv.waiters (waits_update rfl waiting)).imp_right (notifies_update _ (by rw [free.1]; rfl))
  · cases taken

theorem inv_write (taken : step s (.write thread) = some s') : Inv s' := by
  simp only [step] at taken
  split at taken
  · rename_i call lsn here
    obtain ⟨file, -, rfl⟩ := Option.map_eq_some_iff.mp taken
    have last : s.log.lastLsn ≤ lsn := by simpa [here, Phase.Sound] using inv.sound thread
    refine ⟨inv.mutex.release (by rw [here]; rfl) rfl, inv.flushMutex.keep (by rw [here]; rfl),
      inv.flusher.keep (by rw [here]; rfl), inv.flag, fun _ => last.trans (Nat.le_max_right _ _), fun other => ?_,
      inv.durable, fun waiting => ?_, inv.results⟩
    · by_cases same : other = thread
      · rw [same]
        simp [State.enter, Phase.Sound]
      · have noAppend : (s.phase other).holdsMutex = false := by
          by_contra appends
          exact same (inv.mutex.unique (Bool.not_eq_false _ ▸ appends) (by rw [here]; rfl))
        simp only [State.enter, Function.update_of_ne same]
        exact (inv.sound other).written noAppend (Nat.le_max_left _ _)
    · exact (inv.waiters (waits_update rfl waiting)).imp_right (notifies_update _ (by rw [here]; rfl))
  · cases taken

theorem Inv.enter {next : Phase} (mutex : next.holdsMutex = (s.phase thread).holdsMutex)
    (flushMutex : next.holdsFlushMutex = (s.phase thread).holdsFlushMutex)
    (flushing : next.flushing = (s.phase thread).flushing) (sound : next.Sound s.log.lastLsn s.written s.syncs)
    (waits : next.waits = false) (notifies : (s.phase thread).notifies = false) : Inv (s.enter thread next) :=
  ⟨inv.mutex.keep mutex, inv.flushMutex.keep flushMutex, inv.flusher.keep flushing, inv.flag, inv.lastLsn,
    sound_update inv.sound thread sound, inv.durable,
    fun waiting => (inv.waiters (waits_update waits waiting)).imp_right (notifies_update _ notifies), inv.results⟩

theorem inv_flushThrough {lsn : Nat} (taken : step s (.flushThrough thread lsn) = some s') : Inv s' := by
  simp only [step] at taken
  split at taken
  · rename_i free
    cases taken
    exact inv.enter (by rw [free.1]; rfl) (by rw [free.1]; rfl) (by rw [free.1]; rfl) free.2 rfl (by rw [free.1]; rfl)
  · cases taken

theorem inv_wakeSpuriously (taken : step s (.wakeSpuriously thread) = some s') : Inv s' := by
  simp only [step] at taken
  split at taken
  · rename_i call here
    cases taken
    have sound := inv.sound thread
    rw [here] at sound
    exact inv.enter (by rw [here]; rfl) (by rw [here]; rfl) (by rw [here]; rfl) sound rfl (by rw [here]; rfl)
  · cases taken

theorem inv_finish {call : FlushCall} {threw : Bool} (here : (s.phase thread).holdsFlushMutex = true)
    (noMutex : (s.phase thread).holdsMutex = false) (notFlushing : (s.phase thread).flushing = false)
    (attended : (∃ other, (s.phase other).waits = true) →
      s.flusher ≠ none ∨ ∃ other ≠ thread, (s.phase other).notifies = true)
    (result : if threw then 0 < call.failures else call.targetLsn ≤ s.log.durableLsn) :
    Inv (s.finish thread call threw) := by
  refine ⟨inv.mutex.keep noMutex.symm, inv.flushMutex.release here rfl, inv.flusher.keep notFlushing.symm, inv.flag,
    inv.lastLsn, sound_update inv.sound thread trivial, inv.durable, fun waiting => ?_, fun ended isResult => ?_⟩
  · refine (attended (waits_update rfl waiting)).imp_right fun ⟨other, different, notifies⟩ => ⟨other, ?_⟩
    simpa [State.finish, Function.update_of_ne different] using notifies
  · rcases List.mem_cons.mp isResult with rfl | older
    · exact result
    · exact inv.results ended older

theorem inv_locking {call : FlushCall} (here : s.phase thread = .locking call) {synced : Bool}
    (taken : proceed s thread synced = some s') : Inv s' := by
  have sound := inv.sound thread
  rw [here] at sound
  simp only [proceed, here] at taken
  split at taken
  · rename_i free
    cases taken
    have noFlushMutex : Owns none Phase.holdsFlushMutex s.phase := free ▸ inv.flushMutex
    exact ⟨inv.mutex.keep (by rw [here]; rfl), noFlushMutex.take thread rfl, inv.flusher.keep (by rw [here]; rfl),
      inv.flag, inv.lastLsn, sound_update inv.sound thread sound, inv.durable,
      fun waiting => (inv.waiters (waits_update rfl waiting)).imp_right (notifies_update _ (by rw [here]; rfl)),
      inv.results⟩
  · cases taken

theorem inv_checking {call : FlushCall} (here : s.phase thread = .checking call) {synced : Bool}
    (taken : proceed s thread synced = some s') : Inv s' := by
  have sound := inv.sound thread
  rw [here] at sound
  simp only [proceed, here] at taken
  have others : (∃ other, (s.phase other).waits = true) →
      s.flusher ≠ none ∨ ∃ other ≠ thread, (s.phase other).notifies = true := by
    refine fun waiting => (inv.waiters waiting).imp_right fun ⟨other, notifies⟩ => ⟨other, fun same => ?_, notifies⟩
    rw [same, here] at notifies
    cases notifies
  split at taken
  · split at taken
    · rename_i inProgress
      cases taken
      have flusher : s.flusher ≠ none := by
        rw [inv.flag, Option.isSome_iff_ne_none] at inProgress
        exact inProgress
      exact ⟨inv.mutex.keep (by rw [here]; rfl), inv.flushMutex.release (by rw [here]; rfl) rfl,
        inv.flusher.keep (by rw [here]; rfl), inv.flag, inv.lastLsn, sound_update inv.sound thread sound, inv.durable,
        fun _ => .inl flusher, inv.results⟩
    · rename_i idle
      cases taken
      have noFlusher : s.flusher = none := by
        rw [inv.flag, Option.not_isSome_iff_eq_none] at idle
        exact idle
      have nobody : Owns none Phase.flushing s.phase := noFlusher ▸ inv.flusher
      exact ⟨inv.mutex.keep (by rw [here]; rfl), inv.flushMutex.keep (by rw [here]; rfl), nobody.take thread rfl, rfl,
        inv.lastLsn, sound_update inv.sound thread sound, inv.durable, fun _ => .inl (by simp [State.enter]), inv.results⟩
  · rename_i covered
    cases taken
    exact inv_finish inv (by rw [here]; rfl) (by rw [here]; rfl) (by rw [here]; rfl) others (Nat.le_of_not_lt covered)

theorem inv_claimed {call : FlushCall} (here : s.phase thread = .claimed call) {synced : Bool}
    (taken : proceed s thread synced = some s') : Inv s' := by
  have sound := inv.sound thread
  rw [here] at sound
  simp only [proceed, here] at taken
  split at taken
  · rename_i free
    cases taken
    have covers : max call.targetLsn s.log.lastLsn ≤ s.written := Nat.max_le.mpr ⟨sound, inv.lastLsn free⟩
    exact ⟨inv.mutex.keep (by rw [here]; rfl), inv.flushMutex.release (by rw [here]; rfl) rfl,
      inv.flusher.keep (by rw [here]; rfl), inv.flag, inv.lastLsn, sound_update inv.sound thread ⟨sound, covers⟩,
      inv.durable,
      fun waiting => (inv.waiters (waits_update rfl waiting)).imp_right (notifies_update _ (by rw [here]; rfl)),
      inv.results⟩
  · cases taken

theorem inv_unlocked {call : FlushCall} {toCover : Nat} (here : s.phase thread = .unlocked call toCover) {synced : Bool}
    (taken : proceed s thread synced = some s') : Inv s' := by
  have sound := inv.sound thread
  rw [here] at sound
  simp only [proceed, here] at taken
  cases taken
  exact inv.enter (by rw [here]; rfl) (by rw [here]; rfl) (by rw [here]; rfl) ⟨sound.1, sound.2, Nat.le_refl _⟩ rfl
    (by rw [here]; rfl)

theorem inv_fsyncing {call : FlushCall} {toCover before length : Nat}
    (here : s.phase thread = .fsyncing call toCover before length) {synced : Bool}
    (taken : proceed s thread synced = some s') : Inv s' := by
  have sound := inv.sound thread
  rw [here] at sound
  simp only [proceed, here] at taken
  split at taken
  · cases taken
    exact ⟨inv.mutex.keep (by rw [here]; rfl), inv.flushMutex.keep (by rw [here]; rfl),
      inv.flusher.keep (by rw [here]; rfl), inv.flag, inv.lastLsn,
      sound_update (fun other => (inv.sound other).mono before) thread
        ⟨sound.1, fun _ => ⟨before, List.mem_cons_self, sound.2.1⟩, fun failed => by cases failed⟩,
      inv.durable.imp_right fun covered => covered.mono before,
      fun waiting => (inv.waiters (waits_update rfl waiting)).imp_right (notifies_update _ (by rw [here]; rfl)),
      inv.results⟩
  · cases taken
    exact inv.enter (by rw [here]; rfl) (by rw [here]; rfl) (by rw [here]; rfl)
      ⟨sound.1, (fun succeeded => by cases succeeded), fun _ => Nat.succ_pos _⟩ rfl (by rw [here]; rfl)

theorem inv_relocking {call : FlushCall} {toCover : Nat} {failed : Bool}
    (here : s.phase thread = .relocking call toCover failed) {synced : Bool}
    (taken : proceed s thread synced = some s') : Inv s' := by
  have sound := inv.sound thread
  rw [here] at sound
  simp only [proceed, here] at taken
  split at taken
  · rename_i free
    cases taken
    have noFlushMutex : Owns none Phase.holdsFlushMutex s.phase := free ▸ inv.flushMutex
    refine ⟨inv.mutex.keep (by rw [here]; rfl), noFlushMutex.take thread rfl, inv.flusher.release (by rw [here]; rfl) rfl,
      rfl, inv.lastLsn, sound_update inv.sound thread ⟨sound.1, sound.2.2⟩, ?_,
      fun _ => .inr ⟨thread, by simp [State.enter, Phase.notifies]⟩, inv.results⟩
    cases failed with
    | true => exact inv.durable
    | false =>
      have covered := sound.2.1 rfl
      simp only [State.enter, Bool.false_eq_true, if_false]
      rcases Nat.le_total s.log.durableLsn toCover with newer | older
      · rw [Nat.max_eq_right newer]
        exact .inr covered
      · rw [Nat.max_eq_left older]
        exact inv.durable
  · cases taken

theorem inv_notifying {call : FlushCall} {failed : Bool} (here : s.phase thread = .notifying call failed) {synced : Bool}
    (taken : proceed s thread synced = some s') : Inv s' := by
  have sound := inv.sound thread
  rw [here] at sound
  simp only [proceed, here] at taken
  -- everyone who was waiting is awake now
  have nobodyWaits : ¬ ∃ other, (s.phase other).wake.waits = true := by
    rintro ⟨other, waits⟩
    cases phase : s.phase other <;> simp [phase, Phase.wake, Phase.waits] at waits
  have woken : Inv { s with phase := fun other => (s.phase other).wake } :=
    ⟨inv.mutex.wake fun phase => by cases phase <;> rfl, inv.flushMutex.wake fun phase => by cases phase <;> rfl,
      inv.flusher.wake fun phase => by cases phase <;> rfl, inv.flag, inv.lastLsn, fun other => (inv.sound other).wake,
      inv.durable, fun waiting => absurd waiting nobodyWaits, inv.results⟩
  split at taken
  · rename_i isFailed
    cases taken
    refine inv_finish woken ?_ ?_ ?_ (fun waiting => absurd waiting nobodyWaits) (sound.2 isFailed) <;>
      simp only [here] <;> rfl
  · cases taken
    refine ⟨woken.mutex.keep ?_, woken.flushMutex.keep ?_, woken.flusher.keep ?_, woken.flag, woken.lastLsn,
      sound_update woken.sound thread sound.1, woken.durable,
      fun waiting => absurd (waits_update rfl waiting) nobodyWaits, woken.results⟩ <;> simp only [here] <;> rfl

theorem inv_proceed {synced : Bool} (taken : proceed s thread synced = some s') : Inv s' := by
  cases here : s.phase thread with
  | locking call => exact inv_locking inv here taken
  | checking call => exact inv_checking inv here taken
  | claimed call => exact inv_claimed inv here taken
  | unlocked call toCover => exact inv_unlocked inv here taken
  | fsyncing call toCover before length => exact inv_fsyncing inv here taken
  | relocking call toCover failed => exact inv_relocking inv here taken
  | notifying call failed => exact inv_notifying inv here taken
  | idle | appending _ _ | waiting _ =>
    simp only [proceed, here] at taken
    cases taken

theorem inv_step {event : Event} (taken : step s event = some s') : Inv s' := by
  cases event with
  | append thread call => exact inv_append inv taken
  | write thread => exact inv_write inv taken
  | flushThrough thread lsn => exact inv_flushThrough inv taken
  | proceed thread synced => exact inv_proceed inv taken
  | wakeSpuriously thread => exact inv_wakeSpuriously inv taken

end Steps

theorem inv_run {data : Bytes} {events : List Event} {s : State} (reached : run step (opened data) events = some s) :
    Inv s :=
  run_induction (fun _ => Inv) (inv_opened data) (fun _ _ _ _ _ inv taken => inv_step inv taken) reached

theorem durableLsn_le_step {s s' : State} {event : Event} (taken : step s event = some s') :
    s.log.durableLsn ≤ s'.log.durableLsn := by
  cases event with
  | append thread call =>
    simp only [step] at taken
    split at taken <;> cases taken
    exact Nat.le_refl _
  | write thread =>
    simp only [step] at taken
    split at taken
    · obtain ⟨file, -, rfl⟩ := Option.map_eq_some_iff.mp taken
      exact Nat.le_refl _
    · cases taken
  | flushThrough thread lsn =>
    simp only [step] at taken
    split at taken <;> cases taken
    exact Nat.le_refl _
  | proceed thread synced =>
    simp only [step, proceed] at taken
    -- only the end of a round touches it
    split at taken
    case h_6 call toCover failed here =>
      split at taken <;> cases taken
      simp only [State.enter]
      split
      · exact Nat.le_refl _
      · exact Nat.le_max_left ..
    all_goals (try split at taken) <;> (try split at taken) <;> cases taken <;> exact Nat.le_refl _
  | wakeSpuriously thread =>
    simp only [step] at taken
    split at taken <;> cases taken
    exact Nat.le_refl _

/-- One flusher at a time; what is published is on the disk and stays published; a call returns with its LSN published
and throws for a failed fsync of its own only; and nobody waits for a notify_all that does not come. -/
theorem group_commit (data : Bytes) (events : List Event) (s : State)
    (reached : run step (opened data) events = some s) :
    (∀ first second, (s.phase first).flushing = true → (s.phase second).flushing = true → first = second) ∧
      (s.log.flushInProgress = true ↔ ∃ thread, (s.phase thread).flushing = true) ∧
      (s.log.durableLsn = 0 ∨ ∃ before ∈ s.syncs, s.log.durableLsn ≤ before) ∧
      (∀ event s', step s event = some s' → s.log.durableLsn ≤ s'.log.durableLsn) ∧
      (∀ result ∈ s.results, if result.threw then 0 < result.call.failures
        else result.call.targetLsn ≤ result.durableLsn) ∧
      ∀ thread, (s.phase thread).waits = true →
        ∃ other ≠ thread, (s.phase other).flushing = true ∨ (s.phase other).notifies = true := by
  have inv := inv_run reached
  refine ⟨fun _ _ => inv.flusher.unique, ?_, inv.durable, fun _ _ => durableLsn_le_step, inv.results,
    fun thread waits => ?_⟩
  · rw [inv.flag, Option.isSome_iff_exists]
    exact exists_congr inv.flusher
  · have notHere : ∀ kind : Phase → Bool, (∀ call, kind (.waiting call) = false) → ∀ other,
        kind (s.phase other) = true → other ≠ thread := by
      intro kind never other isKind same
      rw [same] at isKind
      cases phase : s.phase thread <;> simp [phase, Phase.waits] at waits
      rw [phase, never] at isKind
      cases isKind
    rcases inv.waiters ⟨thread, waits⟩ with flusher | ⟨other, notifies⟩
    · obtain ⟨other, isFlusher⟩ := Option.ne_none_iff_exists'.mp flusher
      have flushing := (inv.flusher other).mp isFlusher
      exact ⟨other, notHere Phase.flushing (fun _ => rfl) other flushing, .inl flushing⟩
    · exact ⟨other, notHere Phase.notifies (fun _ => rfl) other notifies, .inr notifies⟩

def handOver : List Event :=
  [Event.append 1 (.commit 1), .write 1, .append 2 (.commit 2), .write 2, .flushThrough 1 1, .flushThrough 2 2] ++
    List.replicate 4 (Event.proceed 1 false) ++ List.replicate 2 (Event.proceed 2 false) ++
    List.replicate 3 (Event.proceed 1 false) ++ List.replicate 8 (Event.proceed 2 true)

theorem group_commit_hand_over :
    ∃ s, run step (opened []) handOver = some s ∧ s.results.map FlushResult.threw = [false, true] ∧
      s.log.durableLsn = 2 ∧ ∃ before ∈ s.syncs, s.log.durableLsn ≤ before := by
  obtain ⟨s, reached⟩ : ∃ s, run step (opened []) handOver = some s := ⟨_, rfl⟩
  have ended : s.results.map FlushResult.threw = [false, true] ∧ s.log.durableLsn = 2 := by
    cases reached
    decide
  refine ⟨s, reached, ended.1, ended.2, ?_⟩
  rcases (group_commit [] handOver s reached).2.2.1 with zero | covered
  · rw [ended.2] at zero
    cases zero
  · exact covered

end FlintDB.GroupCommit
