import FlintDB.Index.RawTree
import FlintDB.Storage.StoredHeap
import FlintDB.Txn.AfterAbort

set_option autoImplicit false

-- Execute begins a transaction of its own, aborts it when the statement throws, and throws on. The statement may have
-- come to any point, and other threads have gone on meanwhile. Scan, Search and RangeScanAll are the ones that read
-- the pages' bytes.

namespace FlintDB

open Lib

structure Server where
  engine : Engine
  -- g_current_txn of each thread
  current : Nat → Option Nat := fun _ => none
  -- the observer a thread has at the pool of an object: the transaction that it notifies
  observers : Nat → Nat → Option Nat := fun _ _ => none
  -- page_ids_ of the heap files
  pageIds : Nat → List Nat
  -- new_pid of the Insert that a thread is in
  newPid : Nat → Option PageKey := fun _ => none

inductive ServerEvent
  | act (thread : Nat) (event : Event)
  -- page_ids_.push_back(new_pid)
  | list (thread : Nat) (key : PageKey)
  -- CREATE TABLE or CREATE INDEX, from HasActiveTransaction to the last FlushAll
  | create (objectId : Nat) (disk : DiskManager)

namespace ServerEvent

def isBy (thread : Nat) : ServerEvent → Bool
  | act other _ | list other _ => other = thread
  | create _ _ => false

def touches (key : PageKey) : ServerEvent → Bool
  | act _ event => event.changed = some key
  | list _ other => other = key
  | create objectId _ => key.objectId = objectId

def touchesObject (objectId : Nat) : ServerEvent → Bool
  | act _ event => event.changed.any fun key => key.objectId = objectId
  | list _ key => key.objectId = objectId
  | create other _ => other = objectId

def withoutCommit : ServerEvent → Bool
  | act _ event => event.withoutCommit
  | list _ _ | create _ _ => true

end ServerEvent

namespace Server

def start (log : LogManager) (files : Nat → Option DiskManager) : Server where
  engine := .start log files
  pageIds objectId := List.range ((files objectId).elim 0 DiskManager.numPages)

-- MarkDirty goes to the observer of the thread, and so to this transaction.
def Notifies (s : Server) (thread : Nat) : Event → Prop
  | .write txnId key _ | .allocate txnId key => s.observers thread key.objectId = some txnId
  | _ => True

instance (s : Server) (thread : Nat) (event : Event) : Decidable (s.Notifies thread event) := by
  unfold Notifies
  split <;> infer_instance

-- What the step of a thread does beside the engine.
def moveThread (s : Server) (thread : Nat) : Event → Engine → Server
  | .begin txnId, engine =>
    { s with engine, current := Function.update s.current thread (some txnId)
             newPid := Function.update s.newPid thread none }
  -- SetActiveTransactionObserver at every pool there is
  | .appendBegin txnId, engine =>
    { s with engine, observers := Function.update s.observers thread fun objectId =>
        if (engine.pools objectId).isSome then some txnId else s.observers thread objectId }
  | .allocate _ key, engine => { s with engine, newPid := Function.update s.newPid thread (some key) }
  -- ClearActiveTransactionObserver
  | .commit _, engine | .abort _, engine =>
    { s with engine, observers := Function.update s.observers thread fun objectId =>
        if (engine.pools objectId).isSome then none else s.observers thread objectId }
  | .commitRelease _, engine | .abortRelease _, engine =>
    { s with engine, current := Function.update s.current thread none }
  | _, engine => { s with engine }

def hasActiveTransaction (s : Server) : Bool :=
  (List.range s.engine.nextTxnId).any fun txnId => (s.engine.activeTxns txnId).isSome

-- Whether the thread may take the step: Begin without a transaction, anything else in its own one.
def MayAct (s : Server) (thread : Nat) (event : Event) : Prop :=
  match event with
  | .begin _ => s.current thread = none
  | _ => s.current thread = some event.txnId ∧ s.Notifies thread event

instance (s : Server) (thread : Nat) (event : Event) : Decidable (s.MayAct thread event) := by
  unfold MayAct
  split <;> infer_instance

def step (s : Server) : ServerEvent → Option Server
  | .act thread event =>
    if s.MayAct thread event then (s.engine.step event).map (s.moveThread thread event) else none
  | .list thread key =>
    if s.current thread ≠ none ∧ s.newPid thread = some key then
      some { s with pageIds := Function.update s.pageIds key.objectId (s.pageIds key.objectId ++ [key.pageId])
                    newPid := Function.update s.newPid thread none }
    else none
  | .create objectId disk =>
    if s.hasActiveTransaction = false ∧ (s.engine.pools objectId).isNone then
      some { s with engine := s.engine.setPool objectId { disk := disk }
                    pageIds := Function.update s.pageIds objectId (List.range disk.numPages) }
    else none

-- Scan of a heap file.
def scan (s : Server) (objectId : Nat) : Option (Except Exception (List (RID × Bytes))) :=
  (s.engine.pools objectId).map fun pool => (StoredHeap.scan.exec ⟨pool, s.pageIds objectId⟩).1

-- An index file as its buffer pool shows it.
def indexFile (s : Server) (objectId : Nat) : RawFile where
  pages := ((s.engine.pools objectId).elim [] fun pool => (List.range pool.disk.numPages).map pool.content)

/-- Accesses of a statement, under its transaction. -/
inductive Access
  | lock (key : PageKey) (mode : LockMode)
  | read (key : PageKey) (image : PageImage)
  | write (key : PageKey) (image : PageImage)
  | allocate (key : PageKey)
  | list (key : PageKey)

def Access.event (thread txnId : Nat) : Access → ServerEvent
  | lock key mode => .act thread (.lock txnId key mode)
  | read key image => .act thread (.read txnId key image)
  | write key image => .act thread (.write txnId key image)
  | allocate key => .act thread (.allocate txnId key)
  | list key => .list thread key

/-- What a thread does in an Execute that throws: Begin, the statement as far as it comes, Abort. -/
def failedExecute (thread txnId : Nat) (accesses : List Access) (pages : List PageKey) : List ServerEvent :=
  .act thread (.begin txnId) :: .act thread (.appendBegin txnId) ::
    (accesses.map (Access.event thread txnId) ++ (Engine.abortEvents txnId pages).map (.act thread))

/-- Every thread has a transaction of its own, its observers are those of a statement that goes on, and the heap files
list pages that are there. -/
structure Sound (s : Server) : Prop where
  serial : ∃ init events, Engine.Serial init events s.engine
  owner : ∀ thread txnId, s.current thread = some txnId → s.engine.activeTxns txnId ≠ none
  alone : ∀ thread other txnId, s.current thread = some txnId → s.current other = some txnId → thread = other
  observing : ∀ thread objectId txnId, s.observers thread objectId = some txnId →
    s.current thread = some txnId ∧ (s.engine.numPages objectId).isSome ∧ s.engine.Running txnId
  listed : ∀ objectId, ∀ pageId ∈ s.pageIds objectId, ∃ n, s.engine.numPages objectId = some n ∧ pageId < n
  allocated : ∀ thread key, s.newPid thread = some key → ∃ n, s.engine.numPages key.objectId = some n ∧ key.pageId < n

variable {s s' : Server} {thread other : Nat} {event : Event} {engine : Engine}

@[simp] theorem moveThread_engine (s : Server) (thread : Nat) (event : Event) (engine : Engine) :
    (s.moveThread thread event engine).engine = engine := by
  cases event <;> rfl

@[simp] theorem moveThread_pageIds (s : Server) (thread : Nat) (event : Event) (engine : Engine) :
    (s.moveThread thread event engine).pageIds = s.pageIds := by
  cases event <;> rfl

theorem moveThread_other (different : other ≠ thread) :
    (s.moveThread thread event engine).current other = s.current other ∧
      (s.moveThread thread event engine).observers other = s.observers other ∧
      (s.moveThread thread event engine).newPid other = s.newPid other := by
  cases event <;> simp [moveThread, different]

theorem step_act (stepped : s.step (.act thread event) = some s') :
    s.MayAct thread event ∧ ∃ engine, s.engine.step event = some engine ∧ s' = s.moveThread thread event engine := by
  simp only [step, Option.ite_none_right_eq_some, Option.map_eq_some_iff] at stepped
  obtain ⟨may, engine, moved, rfl⟩ := stepped
  exact ⟨may, engine, moved, rfl⟩

theorem MayAct.current (may : s.MayAct thread event) (notBegin : ∀ txnId, event ≠ .begin txnId) :
    s.current thread = some event.txnId := by
  cases event with
  | begin txnId => exact absurd rfl (notBegin txnId)
  | _ => exact may.1

theorem Sound.not_current (sound : s.Sound) (may : s.MayAct thread event) (moved : s.engine.step event = some engine)
    (different : other ≠ thread) : s.current other ≠ some event.txnId := by
  intro same
  cases event with
  | begin txnId =>
    obtain ⟨next, -, -⟩ := Engine.step_begin moved
    obtain ⟨init, events, serial⟩ := sound.serial
    exact absurd (serial.born txnId (sound.owner other txnId same)) (Nat.not_lt.mpr next.ge)
  | _ => exact different (sound.alone other thread _ same may.1)

theorem start_sound (log : LogManager) (files : Nat → Option DiskManager) : (start log files).Sound where
  serial := ⟨_, _, Engine.Serial.start log files⟩
  owner := by simp [start]
  alone := by simp [start]
  observing := by simp [start]
  listed := by
    intro objectId pageId member
    simp only [start, List.mem_range] at member
    simp only [start, Engine.numPages, Engine.start]
    cases found : files objectId with
    | none =>
      rw [found] at member
      exact absurd member (Nat.not_lt_zero pageId)
    | some disk =>
      rw [found] at member
      exact ⟨disk.numPages, rfl, member⟩
  allocated := by simp [start]

theorem Sound.observing_own (sound : s.Sound) (may : s.MayAct thread event)
    (moved : s.engine.step event = some engine) {objectId txnId : Nat}
    (observed : (s.moveThread thread event engine).observers thread objectId = some txnId) :
    (s.moveThread thread event engine).current thread = some txnId ∧ (engine.numPages objectId).isSome ∧
      engine.Running txnId := by
  obtain ⟨init, events, serial⟩ := sound.serial
  have move := Engine.moved serial.wellFormed serial.born moved
  have size : (s.engine.numPages objectId).isSome → (engine.numPages objectId).isSome := by
    intro present
    obtain ⟨n, before⟩ := Option.isSome_iff_exists.mp present
    obtain ⟨n', after, -⟩ := (move.sizes objectId).mono before
    rw [after]
    rfl
  have isSome_iff : (engine.numPages objectId).isSome = (engine.pools objectId).isSome := by
    rw [Engine.numPages, Option.isSome_map]
  -- an observer that is not replaced was there before, with its pool
  have kept : ∀ {observer : Option Nat}, (if (engine.pools objectId).isSome then observer else
      s.observers thread objectId) = some txnId → observer = some txnId ∧ (engine.numPages objectId).isSome := by
    intro observer observed
    split at observed
    · rename_i present
      exact ⟨observed, isSome_iff.trans present⟩
    · rename_i absent
      obtain ⟨-, present, -⟩ := sound.observing thread objectId txnId observed
      exact absurd ((isSome_iff.symm.trans (size present))) absent
  have still : s.observers thread objectId = some txnId → (∀ txnId, event ≠ .begin txnId) →
      (∀ txnId, event ≠ .commit txnId) → (∀ txnId, event ≠ .abort txnId) → (∀ txnId, event ≠ .commitRelease txnId) →
      (∀ txnId, event ≠ .abortRelease txnId) →
      s.current thread = some txnId ∧ (engine.numPages objectId).isSome ∧ engine.Running txnId := by
    intro before noBegin noCommit noAbort notCommitted notAborted
    obtain ⟨current, present, running⟩ := sound.observing thread objectId txnId before
    cases current.symm.trans (may.current noBegin)
    have goes := Engine.goes_on serial (sound.owner thread _ current) moved notCommitted notAborted
    exact ⟨current, size present, goes.2 running noCommit noAbort⟩
  have released : s.observers thread objectId = some txnId → s.current thread = some event.txnId →
      ¬ s.engine.Running event.txnId → False := by
    intro before current notRunning
    obtain ⟨current', -, running⟩ := sound.observing thread objectId txnId before
    cases current.symm.trans current'
    exact notRunning running
  cases event with
  | begin fresh =>
    obtain ⟨current, -, -⟩ := sound.observing thread objectId txnId observed
    exact absurd (current.symm.trans (show s.current thread = none from may)) (by simp)
  | appendBegin fresh =>
    simp only [moveThread, Function.update_self] at observed ⊢
    obtain ⟨same, present⟩ := kept observed
    cases same
    obtain ⟨txn, log, lsn, active, -, -, rfl⟩ := Engine.step_appendBegin moved
    exact ⟨may.1, present, _, Function.update_self .., rfl⟩
  | commit fresh =>
    simp only [moveThread, Function.update_self] at observed
    exact absurd (kept observed).1 (by simp)
  | abort fresh =>
    simp only [moveThread, Function.update_self] at observed
    exact absurd (kept observed).1 (by simp)
  | commitRelease fresh =>
    refine (released observed may.1 ?_).elim
    rintro ⟨txn, active, running⟩
    obtain ⟨txn', active', phase, -⟩ := Engine.step_commitRelease moved
    cases active.symm.trans active'
    cases phase.symm.trans running
  | abortRelease fresh =>
    refine (released observed may.1 ?_).elim
    rintro ⟨txn, active, running⟩
    obtain ⟨txn', active', phase, -⟩ := Engine.step_abortRelease moved
    cases active.symm.trans active'
    cases phase.symm.trans running
  | _ => exact still observed (by simp) (by simp) (by simp) (by simp) (by simp)

theorem Sound.owner_own (sound : s.Sound) (may : s.MayAct thread event) (moved : s.engine.step event = some engine)
    {txnId : Nat} (current : (s.moveThread thread event engine).current thread = some txnId) :
    txnId = event.txnId ∧ engine.activeTxns txnId ≠ none := by
  obtain ⟨init, events, serial⟩ := sound.serial
  have still : s.current thread = some txnId → (∀ txnId, event ≠ .begin txnId) → (∀ txnId, event ≠ .commitRelease txnId) →
      (∀ txnId, event ≠ .abortRelease txnId) → txnId = event.txnId ∧ engine.activeTxns txnId ≠ none := by
    intro before noBegin notCommitted notAborted
    cases before.symm.trans (may.current noBegin)
    exact ⟨rfl, (Engine.goes_on serial (sound.owner thread _ before) moved notCommitted notAborted).1⟩
  cases event with
  | begin fresh =>
    simp only [moveThread, Function.update_self, Option.some.injEq] at current
    subst current
    obtain ⟨-, -, rfl⟩ := Engine.step_begin moved
    exact ⟨rfl, by simp [Engine.setTxn]⟩
  | commitRelease fresh => simp [moveThread] at current
  | abortRelease fresh => simp [moveThread] at current
  | _ => exact still current (by simp) (by simp) (by simp)

theorem Sound.allocated_own (sound : s.Sound) (moved : s.engine.step event = some engine) {key : PageKey}
    (pending : (s.moveThread thread event engine).newPid thread = some key) :
    (∃ n, engine.numPages key.objectId = some n ∧ key.pageId < n) ∧
      (s.newPid thread = some key ∨ s.engine.numPages key.objectId = some key.pageId) := by
  obtain ⟨init, events, serial⟩ := sound.serial
  have move := Engine.moved serial.wellFormed serial.born moved
  have still : s.newPid thread = some key → (∃ n, engine.numPages key.objectId = some n ∧ key.pageId < n) ∧
      (s.newPid thread = some key ∨ s.engine.numPages key.objectId = some key.pageId) := by
    intro before
    obtain ⟨n, size, within⟩ := sound.allocated thread key before
    obtain ⟨n', size', grown⟩ := (move.sizes key.objectId).mono size
    exact ⟨⟨n', size', Nat.lt_of_lt_of_le within grown⟩, .inl before⟩
  cases event with
  | begin fresh => simp [moveThread] at pending
  | allocate fresh isNew =>
    simp only [moveThread, Function.update_self, Option.some.injEq] at pending
    subst pending
    obtain ⟨before, after⟩ := Engine.allocated_size moved
    exact ⟨⟨_, after, Nat.lt_succ_self _⟩, .inr before⟩
  | _ => exact still pending

theorem Sound.act (sound : s.Sound) (stepped : s.step (.act thread event) = some s') : s'.Sound := by
  obtain ⟨may, engine, moved, rfl⟩ := step_act stepped
  obtain ⟨init, events, serial⟩ := sound.serial
  have move := Engine.moved serial.wellFormed serial.born moved
  refine ⟨⟨init, events ++ [event], by rw [moveThread_engine]; exact serial.step moved⟩, ?_, ?_, ?_, ?_, ?_⟩
  · intro other txnId current
    rw [moveThread_engine]
    by_cases same : other = thread
    · exact (sound.owner_own may moved (same ▸ current)).2
    · rw [(moveThread_other same).1] at current
      have notThis : txnId ≠ event.txnId := fun equal => sound.not_current may moved same (equal ▸ current)
      rw [move.others txnId notThis]
      exact sound.owner other txnId current
  · intro first second txnId isFirst isSecond
    by_cases firstIs : first = thread
    · by_cases secondIs : second = thread
      · rw [firstIs, secondIs]
      · have own := (sound.owner_own may moved (firstIs ▸ isFirst)).1
        rw [(moveThread_other secondIs).1, own] at isSecond
        exact absurd isSecond (sound.not_current may moved secondIs)
    · rw [(moveThread_other firstIs).1] at isFirst
      by_cases secondIs : second = thread
      · have own := (sound.owner_own may moved (secondIs ▸ isSecond)).1
        rw [own] at isFirst
        exact absurd isFirst (sound.not_current may moved firstIs)
      · rw [(moveThread_other secondIs).1] at isSecond
        exact sound.alone first second txnId isFirst isSecond
  · intro other objectId txnId observed
    rw [moveThread_engine]
    by_cases same : other = thread
    · subst same
      exact sound.observing_own may moved observed
    · rw [(moveThread_other same).2.1] at observed
      rw [(moveThread_other same).1]
      obtain ⟨current, present, txn, active, running⟩ := sound.observing other objectId txnId observed
      have notThis : txnId ≠ event.txnId := fun equal => sound.not_current may moved same (equal ▸ current)
      obtain ⟨n, before⟩ := Option.isSome_iff_exists.mp present
      obtain ⟨n', after, -⟩ := (move.sizes objectId).mono before
      exact ⟨current, by rw [after]; rfl, txn, by rw [move.others txnId notThis, active], running⟩
  · intro objectId pageId member
    rw [moveThread_pageIds] at member
    rw [moveThread_engine]
    obtain ⟨n, size, within⟩ := sound.listed objectId pageId member
    obtain ⟨n', size', grown⟩ := (move.sizes objectId).mono size
    exact ⟨n', size', Nat.lt_of_lt_of_le within grown⟩
  · intro other key pending
    rw [moveThread_engine]
    by_cases same : other = thread
    · subst same
      exact (sound.allocated_own moved pending).1
    · rw [(moveThread_other same).2.2] at pending
      obtain ⟨n, size, within⟩ := sound.allocated other key pending
      obtain ⟨n', size', grown⟩ := (move.sizes key.objectId).mono size
      exact ⟨n', size', Nat.lt_of_lt_of_le within grown⟩

theorem step_list {key : PageKey} (stepped : s.step (.list thread key) = some s') :
    s.current thread ≠ none ∧ s.newPid thread = some key ∧
      s' = { s with pageIds := Function.update s.pageIds key.objectId (s.pageIds key.objectId ++ [key.pageId])
                    newPid := Function.update s.newPid thread none } := by
  simp only [step, Option.ite_none_right_eq_some, Option.some.injEq] at stepped
  exact ⟨stepped.1.1, stepped.1.2, stepped.2.symm⟩

theorem Sound.list (sound : s.Sound) {key : PageKey} (stepped : s.step (.list thread key) = some s') : s'.Sound := by
  obtain ⟨-, pending, rfl⟩ := step_list stepped
  refine ⟨sound.serial, sound.owner, sound.alone, sound.observing, ?_, ?_⟩
  · intro objectId pageId member
    by_cases same : objectId = key.objectId
    · subst same
      simp only [Function.update_self, List.mem_append, List.mem_singleton] at member
      rcases member with older | rfl
      · exact sound.listed key.objectId pageId older
      · exact sound.allocated thread key pending
    · simp only [Function.update_of_ne same] at member
      exact sound.listed objectId pageId member
  · intro other isNew pending'
    by_cases same : other = thread
    · subst same
      simp at pending'
    · simp only [Function.update_of_ne same] at pending'
      exact sound.allocated other isNew pending'

theorem Sound.idle (sound : s.Sound) (none : s.hasActiveTransaction = false) (txnId : Nat) :
    s.engine.activeTxns txnId = Option.none := by
  obtain ⟨init, events, serial⟩ := sound.serial
  by_contra active
  have born := serial.born txnId active
  rw [hasActiveTransaction, List.any_eq_false] at none
  exact none txnId (List.mem_range.mpr born) (Option.isSome_iff_ne_none.mpr active)

theorem step_create {objectId : Nat} {disk : DiskManager} (stepped : s.step (.create objectId disk) = some s') :
    s.hasActiveTransaction = false ∧ s.engine.pools objectId = none ∧
      s' = { s with engine := s.engine.setPool objectId { disk := disk }
                    pageIds := Function.update s.pageIds objectId (List.range disk.numPages) } := by
  simp only [step, Option.ite_none_right_eq_some, Option.some.injEq, Option.isNone_iff_eq_none] at stepped
  exact ⟨stepped.1.1, stepped.1.2, stepped.2.symm⟩

theorem numPages_setPool (engine : Engine) (objectId : Nat) (pool : BufferPool) (other : Nat) :
    (engine.setPool objectId pool).numPages other =
      if other = objectId then some pool.disk.numPages else engine.numPages other := by
  by_cases same : other = objectId
  · subst same
    simp [Engine.numPages, Engine.setPool]
  · simp [Engine.numPages, Engine.setPool, same]

theorem Sound.create (sound : s.Sound) {objectId : Nat} {disk : DiskManager}
    (stepped : s.step (.create objectId disk) = some s') : s'.Sound := by
  obtain ⟨none, absent, rfl⟩ := step_create stepped
  have idle := sound.idle none
  obtain ⟨init, events, serial⟩ := sound.serial
  have noCurrent : ∀ thread txnId, s.current thread ≠ some txnId := fun thread txnId current =>
    sound.owner thread txnId current (idle txnId)
  have clean : s.engine.content = s.engine.onDisk := by
    funext key
    obtain ⟨content, onDisk⟩ := serial.clean key fun txnId txn active => by
      rw [idle] at active
      cases active
    rw [content, onDisk]
  have bounds : ∀ {other pageId : Nat}, (∃ n, s.engine.numPages other = some n ∧ pageId < n) →
      ∃ n, (s.engine.setPool objectId { disk := disk }).numPages other = some n ∧ pageId < n := by
    rintro other pageId ⟨n, size, within⟩
    have different : other ≠ objectId := by
      rintro rfl
      rw [Engine.numPages, absent] at size
      cases size
    exact ⟨n, by rw [numPages_setPool, if_neg different]; exact size, within⟩
  refine ⟨⟨_, _, Engine.Serial.quiet (s := s.engine.setPool objectId { disk := disk }) ?_ idle serial.consistent
    (fun txnId key held => serial.holder txnId key held (idle txnId)) ?_⟩, ?_, sound.alone, ?_, ?_, ?_⟩
  · exact Engine.wellFormed_setPool serial.wellFormed fun pageId cached => absurd rfl cached
  · funext key
    by_cases same : key.objectId = objectId
    · simp [Engine.content, Engine.onDisk, Engine.setPool, same, BufferPool.content]
    · have here := congrFun clean key
      simp only [Engine.content, Engine.onDisk, Engine.setPool, Function.update_of_ne same] at here ⊢
      exact here
  · exact fun thread txnId current => absurd current (noCurrent thread txnId)
  · intro thread other txnId observed
    exact absurd (sound.observing thread other txnId observed).1 (noCurrent thread txnId)
  · intro other pageId member
    by_cases same : other = objectId
    · subst same
      simp only [Function.update_self, List.mem_range] at member
      exact ⟨disk.numPages, by rw [numPages_setPool, if_pos rfl], member⟩
    · simp only [Function.update_of_ne same] at member
      exact bounds (sound.listed other pageId member)
  · exact fun thread key pending => bounds (sound.allocated thread key pending)

theorem Sound.step (sound : s.Sound) {event : ServerEvent} (stepped : s.step event = some s') : s'.Sound := by
  cases event with
  | act thread event => exact sound.act stepped
  | list thread key => exact sound.list stepped
  | create objectId disk => exact sound.create stepped

-- The page once the statement of the thread, if it is in one, has been taken back.
def settled (s : Server) (thread : Nat) (key : PageKey) : PageImage :=
  match s.current thread with
  | some txnId => s.engine.afterAbort txnId key
  | none => s.engine.content key

theorem settled_of_some {txnId : Nat} (current : s.current thread = some txnId) (key : PageKey) :
    s.settled thread key = s.engine.afterAbort txnId key := by
  rw [settled, current]

theorem settled_of_none (current : s.current thread = none) (key : PageKey) :
    s.settled thread key = s.engine.content key := by
  rw [settled, current]

theorem settled_own (sound : s.Sound) (stepped : s.step (.act thread event) = some s') (aborting : event.withoutCommit)
    (key : PageKey) : s'.settled thread key = s.settled thread key := by
  obtain ⟨may, engine, moved, rfl⟩ := step_act stepped
  obtain ⟨init, events, serial⟩ := sound.serial
  have same : engine.afterAbort event.txnId key = s.engine.afterAbort event.txnId key :=
    Engine.afterAbort_own serial moved rfl aborting
  cases event with
  | begin txnId =>
    have unborn : s.engine.activeTxns txnId = none := by
      by_contra active
      exact absurd (serial.born txnId active) (Nat.not_lt.mpr (Engine.step_begin moved).1.ge)
    rw [settled_of_none (show s.current thread = none from may), ← Engine.afterAbort_of_ended unborn key]
    rw [settled_of_some (Function.update_self ..)]
    exact same
  | abortRelease txnId =>
    obtain ⟨txn, -, -, ended⟩ := Engine.step_abortRelease moved
    have gone : engine.activeTxns txnId = none := by
      rw [ended]
      exact Function.update_self ..
    rw [settled_of_some may.1, settled_of_none (Function.update_self ..), moveThread_engine]
    exact (Engine.afterAbort_of_ended gone key).symm.trans same
  | commit | appendUpdate | appendCommit | flushBegin | fsync | flushEnd | flushReturn | flushPage | flushPageTorn
  | commitRelease => cases aborting
  | _ =>
    rw [settled_of_some may.1, settled_of_some (by exact may.1), moveThread_engine]
    exact same

theorem settled_other (sound : s.Sound) (stepped : s.step (.act other event) = some s') (different : other ≠ thread)
    {key : PageKey} (unchanged : event.changed ≠ some key) : s'.settled thread key = s.settled thread key := by
  obtain ⟨may, engine, moved, rfl⟩ := step_act stepped
  obtain ⟨init, events, serial⟩ := sound.serial
  have current : (s.moveThread other event engine).current thread = s.current thread :=
    (moveThread_other (Ne.symm different)).1
  cases before : s.current thread with
  | none =>
    rw [settled_of_none before, settled_of_none (current.trans before), moveThread_engine]
    exact Engine.content_step serial moved unchanged
  | some txnId =>
    have notThis : event.txnId ≠ txnId := fun same =>
      sound.not_current may moved (Ne.symm different) (same ▸ before)
    rw [settled_of_some before, settled_of_some (current.trans before), moveThread_engine]
    exact Engine.afterAbort_other serial moved notThis unchanged

theorem settled_step (sound : s.Sound) {event : ServerEvent} (stepped : s.step event = some s') {key : PageKey}
    (own : event.isBy thread = true → event.withoutCommit = true)
    (spared : event.isBy thread = false → event.touches key = false) : s'.settled thread key = s.settled thread key := by
  cases event with
  | act other event =>
    by_cases same : other = thread
    · subst same
      exact settled_own sound stepped (own (by simp [ServerEvent.isBy])) key
    · have unchanged := spared (by simp [ServerEvent.isBy, same])
      exact settled_other sound stepped same (by simpa [ServerEvent.touches] using unchanged)
  | list other isNew =>
    obtain ⟨-, -, rfl⟩ := step_list stepped
    rfl
  | create objectId disk =>
    obtain ⟨none, -, rfl⟩ := step_create stepped
    have current : s.current thread = Option.none := by
      by_contra present
      obtain ⟨txnId, owned⟩ := Option.ne_none_iff_exists'.mp present
      exact sound.owner thread txnId owned (sound.idle none txnId)
    have different : key.objectId ≠ objectId := by
      have unchanged := spared rfl
      simpa [ServerEvent.touches] using unchanged
    rw [settled_of_none current, settled_of_none (by exact current)]
    simp only [Engine.content, Engine.setPool, Function.update_of_ne different]

/-- No other thread changes the page meanwhile. -/
def Spared (thread : Nat) (key : PageKey) (events : List ServerEvent) : Prop :=
  ∀ event ∈ events, event.isBy thread = false → event.touches key = false

def SparedObject (thread objectId : Nat) (events : List ServerEvent) : Prop :=
  ∀ event ∈ events, event.isBy thread = false → event.touchesObject objectId = false

theorem SparedObject.spared {events : List ServerEvent} {objectId : Nat} (spared : SparedObject thread objectId events)
    (pageId : Nat) : Spared thread ⟨objectId, pageId⟩ events := by
  intro event member notBy
  have whole := spared event member notBy
  cases event with
  | act other event =>
    rw [ServerEvent.touches, decide_eq_false_iff_not]
    intro changed
    simp [ServerEvent.touchesObject, changed] at whole
  | list other key =>
    rw [ServerEvent.touches, decide_eq_false_iff_not]
    rintro rfl
    simp [ServerEvent.touchesObject] at whole
  | create other disk =>
    simpa [ServerEvent.touches, ServerEvent.touchesObject, eq_comm] using whole

structure Since (before : Server) (thread : Nat) (events : List ServerEvent) (now : Server) : Prop where
  settled : ∀ key, Spared thread key events → now.settled thread key = before.settled thread key
  sizes : ∀ objectId n, before.engine.numPages objectId = some n → ∃ n', now.engine.numPages objectId = some n' ∧ n ≤ n'
  absent : ∀ objectId, SparedObject thread objectId events → before.engine.numPages objectId = none →
    now.engine.numPages objectId = none
  pending : ∀ txnId key, now.current thread = some txnId → now.newPid thread = some key →
    ∀ n, before.engine.numPages key.objectId = some n → n ≤ key.pageId
  listed : ∀ objectId, SparedObject thread objectId events → ∃ new, now.pageIds objectId = before.pageIds objectId ++ new ∧
    ∀ pageId ∈ new, ∀ n, before.engine.numPages objectId = some n → n ≤ pageId

theorem Since.refl (outside : s.current thread = none) : Since s thread [] s where
  settled := fun _ _ => rfl
  sizes := fun _ n size => ⟨n, size, Nat.le_refl n⟩
  absent := fun _ _ absent => absent
  pending := by
    intro txnId key current
    cases outside.symm.trans current
  listed := fun _ _ => ⟨[], by simp, by simp⟩

theorem Spared.snoc {key : PageKey} {events : List ServerEvent} {event : ServerEvent}
    (spared : Spared thread key (events ++ [event])) :
    Spared thread key events ∧ (event.isBy thread = false → event.touches key = false) :=
  ⟨fun earlier member => spared earlier (List.mem_append_left _ member), spared event (by simp)⟩

theorem SparedObject.snoc {objectId : Nat} {events : List ServerEvent} {event : ServerEvent}
    (spared : SparedObject thread objectId (events ++ [event])) :
    SparedObject thread objectId events ∧ (event.isBy thread = false → event.touchesObject objectId = false) :=
  ⟨fun earlier member => spared earlier (List.mem_append_left _ member), spared event (by simp)⟩

theorem Since.act {before : Server} {events : List ServerEvent} (since : Since before thread events s) (sound : s.Sound)
    (stepped : s.step (.act other event) = some s') (own : other = thread → event.withoutCommit = true) :
    Since before thread (events ++ [.act other event]) s' := by
  have settles (key : PageKey) (spared : (ServerEvent.act other event).isBy thread = false →
      (ServerEvent.act other event).touches key = false) : s'.settled thread key = s.settled thread key :=
    settled_step sound stepped (fun isBy => own (by simpa [ServerEvent.isBy] using isBy)) spared
  obtain ⟨may, engine, moved, rfl⟩ := step_act stepped
  obtain ⟨init, history, serial⟩ := sound.serial
  have move := Engine.moved serial.wellFormed serial.born moved
  refine ⟨fun key spared => ?_, fun objectId n size => ?_, fun objectId spared absent => ?_, ?_, fun objectId spared => ?_⟩
  · exact (settles key spared.snoc.2).trans (since.settled key spared.snoc.1)
  · obtain ⟨n', size', grown⟩ := since.sizes objectId n size
    obtain ⟨n'', size'', grown'⟩ := (move.sizes objectId).mono size'
    exact ⟨n'', by rw [moveThread_engine]; exact size'', grown.trans grown'⟩
  · rw [moveThread_engine]
    exact (move.sizes objectId).none (since.absent objectId spared.snoc.1 absent)
  · intro txnId key current pending n size
    by_cases same : other = thread
    · subst same
      rcases (sound.allocated_own moved pending).2 with older | isNew
      · by_cases begins : ∃ fresh, event = .begin fresh
        · obtain ⟨fresh, rfl⟩ := begins
          simp [moveThread] at pending
        · push Not at begins
          exact since.pending _ key (may.current begins) older n size
      · obtain ⟨n', size', grown⟩ := since.sizes key.objectId n size
        cases size'.symm.trans isNew
        exact grown
    · rw [(moveThread_other (Ne.symm same)).1] at current
      rw [(moveThread_other (Ne.symm same)).2.2] at pending
      exact since.pending txnId key current pending n size
  · rw [moveThread_pageIds]
    exact since.listed objectId spared.snoc.1

theorem Since.list {before : Server} {events : List ServerEvent} (since : Since before thread events s) {isNew : PageKey}
    (stepped : s.step (.list other isNew) = some s') :
    Since before thread (events ++ [.list other isNew]) s' := by
  obtain ⟨active, pending, rfl⟩ := step_list stepped
  refine ⟨fun key spared => since.settled key spared.snoc.1, since.sizes,
    fun objectId spared absent => since.absent objectId spared.snoc.1 absent, ?_, fun objectId spared => ?_⟩
  · intro txnId key current pending' n size
    by_cases same : thread = other
    · subst same
      simp at pending'
    · simp only [Function.update_of_ne same] at pending'
      exact since.pending txnId key current pending' n size
  · obtain ⟨new, pageIds_eq, beyond⟩ := since.listed objectId spared.snoc.1
    by_cases same : isNew.objectId = objectId
    · -- only the thread itself lists a page of this object
      have isBy : other = thread := by
        by_contra different
        have untouched := spared.snoc.2 (by simp [ServerEvent.isBy, different])
        simp [ServerEvent.touchesObject, same] at untouched
      subst isBy
      obtain ⟨txnId, current⟩ := Option.ne_none_iff_exists'.mp active
      refine ⟨new ++ [isNew.pageId], ?_, ?_⟩
      · simp only [same, Function.update_self, pageIds_eq, List.append_assoc]
      · intro pageId member n size
        rcases List.mem_append.mp member with older | last
        · exact beyond pageId older n size
        · rw [List.mem_singleton] at last
          subst last
          exact since.pending txnId isNew current pending n (by rw [same]; exact size)
    · exact ⟨new, by simpa only [Function.update_of_ne (Ne.symm same)] using pageIds_eq, beyond⟩

theorem Since.create {before : Server} {events : List ServerEvent} (since : Since before thread events s) (sound : s.Sound)
    {objectId : Nat} {disk : DiskManager} (stepped : s.step (.create objectId disk) = some s') :
    Since before thread (events ++ [.create objectId disk]) s' := by
  have settles (key : PageKey) (spared : (ServerEvent.create objectId disk).isBy thread = false →
      (ServerEvent.create objectId disk).touches key = false) : s'.settled thread key = s.settled thread key :=
    settled_step sound stepped (fun isBy => by cases isBy) spared
  obtain ⟨none, absent, rfl⟩ := step_create stepped
  have notHere : ∀ other, SparedObject thread other (events ++ [.create objectId disk]) → other ≠ objectId := by
    intro other spared same
    have untouched := spared.snoc.2 rfl
    simp [ServerEvent.touchesObject, same] at untouched
  refine ⟨fun key spared => (settles key spared.snoc.2).trans (since.settled key spared.snoc.1), fun other n size => ?_,
    fun other spared missing => ?_, ?_, fun other spared => ?_⟩
  · obtain ⟨n', size', grown⟩ := since.sizes other n size
    have different : other ≠ objectId := by
      rintro rfl
      rw [Engine.numPages, absent] at size'
      cases size'
    exact ⟨n', by rw [numPages_setPool, if_neg different]; exact size', grown⟩
  · rw [numPages_setPool, if_neg (notHere other spared)]
    exact since.absent other spared.snoc.1 missing
  · intro txnId key current
    exact absurd (sound.idle none txnId) (sound.owner thread txnId current)
  · obtain ⟨new, pageIds_eq, beyond⟩ := since.listed other spared.snoc.1
    exact ⟨new, by simpa only [Function.update_of_ne (notHere other spared)] using pageIds_eq, beyond⟩

theorem Since.reached {before now : Server} {events : List ServerEvent} (sound : before.Sound)
    (outside : before.current thread = none) (reached : run Server.step before events = some now)
    (own : ∀ event ∈ events, event.isBy thread = true → event.withoutCommit = true) :
    now.Sound ∧ Since before thread events now := by
  refine run_induction (fun events now => (∀ event ∈ events, event.isBy thread = true → event.withoutCommit = true) →
    now.Sound ∧ Since before thread events now) (fun _ => ⟨sound, .refl outside⟩) ?_ reached own
  rintro events now event now' - ih stepped own
  obtain ⟨sound, since⟩ := ih fun earlier member => own earlier (List.mem_append_left _ member)
  refine ⟨sound.step stepped, ?_⟩
  cases event with
  | act other event =>
    exact since.act sound stepped fun same => own (.act other event) (by simp) (by simp [ServerEvent.isBy, same])
  | list other isNew => exact since.list stepped
  | create objectId disk => exact since.create sound stepped

theorem scanPage_zero (pageId : Nat) : StoredHeap.scanPage pageId .zero = [] := by
  have empty : PageImage.zero.slotCount = 0 := uintAt_zero _ _
  rw [StoredHeap.scanPage, empty]
  rfl

theorem exec_collect_pages {heap : StoredHeap} {pageIds : List Nat} (within : ∀ pageId ∈ pageIds,
    pageId < heap.pool.disk.numPages) :
    (Fallible.exec (Fallible.collect (fun pageId => do return StoredHeap.scanPage pageId (← StoredHeap.fetchPage pageId))
      pageIds) heap).1 = .ok (pageIds.flatMap fun pageId => StoredHeap.scanPage pageId (heap.pool.content pageId)) := by
  have yields : Fallible.Yields (fun now : StoredHeap => now.pool.disk.numPages = heap.pool.disk.numPages ∧
      ∀ pageId, now.pool.content pageId = heap.pool.content pageId)
      (Fallible.collect (fun pageId => do return StoredHeap.scanPage pageId (← StoredHeap.fetchPage pageId)) pageIds)
      (pageIds.flatMap fun pageId => StoredHeap.scanPage pageId (heap.pool.content pageId)) := by
    refine Fallible.Yields.collect fun pageId member now same => ?_
    rw [Fallible.exec_bind_ok (StoredHeap.exec_fetchPage (by rw [same.1]; exact within pageId member)), same.2]
    exact ⟨_, rfl, same.1, fun other => (BufferPool.content_load pageId other).trans (same.2 other)⟩
  obtain ⟨now, ended, -⟩ := yields heap ⟨rfl, fun _ => rfl⟩
  rw [ended]

theorem Sound.scan_eq (sound : s.Sound) {objectId : Nat} {pool : BufferPool} (found : s.engine.pools objectId = some pool) :
    s.scan objectId = some (.ok ((s.pageIds objectId).flatMap fun pageId =>
      StoredHeap.scanPage pageId (s.engine.content ⟨objectId, pageId⟩))) := by
  have within : ∀ pageId ∈ s.pageIds objectId, pageId < pool.disk.numPages := by
    intro pageId member
    obtain ⟨n, size, inside⟩ := sound.listed objectId pageId member
    rw [Engine.numPages, found, Option.map_some, Option.some.injEq] at size
    rwa [size]
  have content : ∀ pageId, s.engine.content ⟨objectId, pageId⟩ = pool.content pageId := fun pageId => by
    simp only [Engine.content, found]
  simp only [scan, found, Option.map_some, content]
  rw [StoredHeap.scan, Fallible.exec_bind_ok (Fallible.exec_get _)]
  exact congrArg some (exec_collect_pages within)

theorem indexFile_page {objectId pageId : Nat} {page : PageImage} :
    (s.indexFile objectId).pages[pageId]? = some page ↔
      (∃ n, s.engine.numPages objectId = some n ∧ pageId < n) ∧ s.engine.content ⟨objectId, pageId⟩ = page := by
  cases found : s.engine.pools objectId with
  | none => simp [indexFile, Engine.numPages, found]
  | some pool =>
    simp only [indexFile, Engine.numPages, Engine.content, found, Option.elim_some, Option.map_some, Option.some.injEq,
      exists_eq_left']
    by_cases within : pageId < pool.disk.numPages
    · simp [within]
    · simp [within]

variable {before after : Server} {events : List ServerEvent}

theorem Since.scan (since : Since before thread events after) (sound : before.Sound) (sound' : after.Sound)
    (outside : before.current thread = none) (outside' : after.current thread = none) {objectId : Nat}
    (spared : SparedObject thread objectId events) : after.scan objectId = before.scan objectId := by
  have content : ∀ pageId, after.engine.content ⟨objectId, pageId⟩ = before.engine.content ⟨objectId, pageId⟩ := by
    intro pageId
    rw [← settled_of_none outside', ← settled_of_none outside]
    exact since.settled _ (spared.spared pageId)
  obtain ⟨init, history, serial⟩ := sound.serial
  obtain ⟨new, pageIds_eq, beyond⟩ := since.listed objectId spared
  cases found : before.engine.pools objectId with
  | none =>
    have absent := since.absent objectId spared (by rw [Engine.numPages, found]; rfl)
    rw [Engine.numPages, Option.map_eq_none_iff] at absent
    rw [Server.scan, Server.scan, absent, found]
    rfl
  | some pool =>
    obtain ⟨n, size, -⟩ := since.sizes objectId pool.disk.numPages (by rw [Engine.numPages, found]; rfl)
    rw [Engine.numPages, Option.map_eq_some_iff] at size
    obtain ⟨pool', found', -⟩ := size
    have noRows : new.flatMap (fun pageId => StoredHeap.scanPage pageId (before.engine.content ⟨objectId, pageId⟩)) = [] := by
      refine List.flatMap_eq_nil_iff.mpr fun pageId member => ?_
      rw [Engine.content_beyond serial.wellFormed (beyond pageId member)]
      exact scanPage_zero pageId
    rw [sound'.scan_eq found', sound.scan_eq found, pageIds_eq]
    simp only [content]
    rw [List.flatMap_append, noRows, List.append_nil]

theorem Since.grows (since : Since before thread events after) (outside : before.current thread = none)
    (outside' : after.current thread = none) {objectId : Nat} (spared : SparedObject thread objectId events) :
    (before.indexFile objectId).Grows (after.indexFile objectId) := by
  refine ⟨rfl, fun pageId page stored => ?_⟩
  rw [indexFile_page] at stored ⊢
  obtain ⟨⟨n, size, within⟩, rfl⟩ := stored
  obtain ⟨n', size', grown⟩ := since.sizes objectId n size
  refine ⟨⟨n', size', Nat.lt_of_lt_of_le within grown⟩, ?_⟩
  rw [← settled_of_none outside', ← settled_of_none outside]
  exact since.settled _ (spared.spared pageId)

/-- The thread is out of its transaction, which has left no lock, no observer and no change. A heap returns the rows it
returned, and an index finds what it found, unless that ran past the end of its file. -/
structure LeavesNoTrace (thread txnId : Nat) (during : List ServerEvent) (before after : Server) : Prop where
  current : after.current thread = none
  ended : after.engine.activeTxns txnId = none
  unlocked : ∀ key, ¬ after.engine.locks.Holds txnId key
  unobserved : ∀ objectId, after.observers thread objectId = none
  nobodyNotifies : ∀ other objectId, after.observers other objectId ≠ some txnId
  content : ∀ key, Spared thread key during → after.engine.content key = before.engine.content key
  scan : ∀ objectId, SparedObject thread objectId during → after.scan objectId = before.scan objectId
  search : ∀ objectId, SparedObject thread objectId during → ∀ key, Peek.Follows ((before.indexFile objectId).search key)
    ((after.indexFile objectId).search key) RawFile.beyondEndOfFile
  entries : ∀ objectId, SparedObject thread objectId during → Peek.Follows (before.indexFile objectId).rangeScanAll
    (after.indexFile objectId).rangeScanAll RawFile.beyondEndOfFile

theorem failedExecute_withoutCommit {txnId : Nat} {accesses : List Access} {pages : List PageKey} :
    ∀ event ∈ failedExecute thread txnId accesses pages, event.withoutCommit = true := by
  intro event member
  simp only [failedExecute, Engine.abortEvents, List.mem_cons, List.mem_append, List.mem_map, List.map_cons,
    List.map_append, List.map_map, List.map_nil, List.not_mem_nil, or_false, Function.comp_apply] at member
  rcases member with rfl | rfl | ⟨access, -, rfl⟩ | rfl | ⟨key, -, rfl⟩ | rfl | rfl
  · rfl
  · rfl
  · cases access <;> rfl
  · rfl
  · rfl
  · rfl
  · rfl

theorem autocommit_failure_leaves_no_trace (log : LogManager) (files : Nat → Option DiskManager)
    (history during : List ServerEvent) (before after : Server) (thread txnId : Nat) (accesses : List Access)
    (pages : List PageKey) (reached : run step (start log files) history = some before)
    (outside : before.current thread = none)
    (rethrown : run step before (during ++ [ServerEvent.act thread (.abortRelease txnId)]) = some after)
    (failed : (during ++ [ServerEvent.act thread (.abortRelease txnId)]).filter (·.isBy thread) =
      failedExecute thread txnId accesses pages) :
    LeavesNoTrace thread txnId during before after := by
  have sound : before.Sound := run_induction (fun _ s => s.Sound) (start_sound log files)
    (fun _ _ _ _ _ sound stepped => sound.step stepped) reached
  have own : ∀ event ∈ during ++ [ServerEvent.act thread (.abortRelease txnId)], event.isBy thread = true →
      event.withoutCommit = true := by
    intro event member isBy
    have mine := List.mem_filter.mpr ⟨member, isBy⟩
    rw [failed] at mine
    exact failedExecute_withoutCommit event mine
  obtain ⟨sound', since⟩ := Since.reached sound outside rethrown own
  have still : ∀ {key : PageKey}, Spared thread key during →
      Spared thread key (during ++ [.act thread (.abortRelease txnId)]) := by
    intro key spared event member notBy
    rcases List.mem_append.mp member with earlier | last
    · exact spared event earlier notBy
    · rw [List.mem_singleton] at last
      subst last
      rfl
  have stillObject : ∀ {objectId : Nat}, SparedObject thread objectId during →
      SparedObject thread objectId (during ++ [.act thread (.abortRelease txnId)]) := by
    intro objectId spared event member notBy
    rcases List.mem_append.mp member with earlier | last
    · exact spared event earlier notBy
    · rw [List.mem_singleton] at last
      subst last
      rfl
  obtain ⟨last, -, releases⟩ := run_snoc.mp rethrown
  obtain ⟨-, engine, moved, after_eq⟩ := step_act releases
  obtain ⟨txn, -, -, finished⟩ := Engine.step_abortRelease moved
  have current : after.current thread = none := by
    rw [after_eq]
    exact Function.update_self ..
  have ended : after.engine.activeTxns txnId = none := by
    rw [after_eq, moveThread_engine, finished]
    exact Function.update_self ..
  obtain ⟨init, events, serial⟩ := sound'.serial
  refine ⟨current, ended, fun key held => serial.holder txnId key held ended, fun objectId => ?_,
    fun other objectId observed => ?_, fun key spared => ?_, fun objectId spared => ?_, fun objectId spared key => ?_,
    fun objectId spared => ?_⟩
  · by_contra observed
    obtain ⟨other, present⟩ := Option.ne_none_iff_exists'.mp observed
    cases current.symm.trans (sound'.observing thread objectId other present).1
  · obtain ⟨-, -, txn', active, -⟩ := sound'.observing other objectId txnId observed
    cases ended.symm.trans active
  · rw [← settled_of_none current, ← settled_of_none outside]
    exact since.settled key (still spared)
  · exact since.scan sound sound' outside current (stillObject spared)
  · exact RawFile.search_follows (since.grows outside current (stillObject spared)) key
  · exact RawFile.rangeScanAll_follows (since.grows outside current (stillObject spared))

def busyHistory : List ServerEvent :=
  [.act 8 (.begin 1), .act 8 (.appendBegin 1), .act 8 (.allocate 1 ⟨0, 0⟩)]

def failingEvents : List ServerEvent :=
  [.act 9 (.begin 2), .act 9 (.appendBegin 2), .act 9 (.lock 2 ⟨0, 0⟩ .kExclusive), .act 9 (.allocate 2 ⟨0, 1⟩),
    .list 8 ⟨0, 0⟩, .list 9 ⟨0, 1⟩, .act 9 (.write 2 ⟨0, 1⟩ (.ofBytes [1])), .act 8 (.write 1 ⟨0, 0⟩ (.ofBytes [2])),
    .act 9 (.abort 2), .act 9 (.discardPage 2 ⟨0, 1⟩), .act 9 (.appendAbort 2)]

set_option maxRecDepth 100000 in
theorem autocommit_failure_leaves_no_trace_allocated : ∃ before after,
    run step (start (LogManager.open []) Engine.oneEmptyFile.file) busyHistory = some before ∧
      run step before (failingEvents ++ [.act 9 (.abortRelease 2)]) = some after ∧
      LeavesNoTrace 9 2 failingEvents before after := by
  have runs : (run step (start (LogManager.open []) Engine.oneEmptyFile.file)
      (busyHistory ++ (failingEvents ++ [.act 9 (.abortRelease 2)]))).isSome = true := by decide +kernel
  have outside : (run step (start (LogManager.open []) Engine.oneEmptyFile.file) busyHistory).map
      (fun s => s.current 9) = some none := by decide +kernel
  obtain ⟨after, whole⟩ := Option.isSome_iff_exists.mp runs
  obtain ⟨before, reached, rethrown⟩ := run_append_some.mp whole
  rw [reached, Option.map_some, Option.some.injEq] at outside
  exact ⟨before, after, reached, rethrown, autocommit_failure_leaves_no_trace _ _ busyHistory failingEvents before after 9 2
    [.lock ⟨0, 0⟩ .kExclusive, .allocate ⟨0, 1⟩, .list ⟨0, 1⟩, .write ⟨0, 1⟩ (.ofBytes [1])] [⟨0, 1⟩] reached outside
    rethrown rfl⟩

end Server

end FlintDB
