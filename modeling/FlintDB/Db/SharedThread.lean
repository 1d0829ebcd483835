import FlintDB.Lib.Run
import FlintDB.Sql.Session
import FlintDB.Storage.BufferPool
import FlintDB.Wal.LogManager

set_option autoImplicit false

-- Every Database has its own log, lock table and buffer pools, but g_current_txn is one for the thread. Execute looks
-- at nothing else to find out whether a transaction is open. A statement is here any program over the pages and the
-- memory of the database it is addressed to; all its locking goes through g_current_txn, whoever that belongs to.

namespace FlintDB.SharedThread

open Lib

/-- The orders in which unordered containers are gone through: dirty_ of a pool, and the pages of a transaction by
object. -/
structure Order where
  dirty : Finset Nat → List Nat
  byObject : Finset PageKey → List PageKey

/-- Which of the two Database objects. -/
inductive Side
  | first
  | second
  deriving DecidableEq

structure Instance (M : Type) where
  log : LogManager
  pools : Nat → Option BufferPool
  -- this thread's observer of each pool: the transaction it notifies, always one of this database
  observers : Nat → Option Nat := fun _ => none
  locks : LockManager := {}
  -- the pages each active transaction has dirtied
  activeTxns : Nat → Option (Finset PageKey) := fun _ => none
  nextTxnId : Nat := 1
  -- catalog, page_ids_ and what else is neither page nor log
  memory : M

structure Process (M : Type) where
  db : Side → Instance M
  -- g_current_txn
  current : Option (Side × Nat) := none

abbrev InstanceM (M : Type) := Fallible (Instance M) Exception

abbrev ProcessM (M : Type) := Fallible (Process M) Exception

variable {M R α : Type}

namespace Instance

-- the text of an out_of_range is the library's; it is a logic_error
def outOfRange : Exception := .logicError "unordered_map::at"

def getPool (objectId : Nat) : InstanceM M BufferPool := do
  match (← get).pools objectId with
  | some pool => return pool
  | none => throw outOfRange

def setPool (objectId : Nat) (pool : BufferPool) : InstanceM M Unit :=
  modify fun db => { db with pools := Function.update db.pools objectId (some pool) }

/-- An append without an I/O error; past the largest offset write() fails. -/
def append (record : LogManager → Option (LogManager × Nat)) : InstanceM M Nat := do
  let db ← get
  match record db.log with
  | none => throw (.runtimeError "LogManager: write failed: File too large")
  | some (log, lsn) =>
    set { db with log := log }
    return lsn

/-- TransactionManager::Begin behind its check. -/
def begin : InstanceM M Nat := do
  let txnId := (← get).nextTxnId
  modify fun db => { db with nextTxnId := txnId + 1 }
  let _ ← append (·.appendBegin txnId)
  modify fun db => { db with
    activeTxns := Function.update db.activeTxns txnId (some ∅)
    observers := fun objectId => if (db.pools objectId).isSome then some txnId else none }
  return txnId

def clearObservers : InstanceM M Unit :=
  modify fun db => { db with
    observers := fun objectId => if (db.pools objectId).isSome then none else db.observers objectId }

def dirtiedPages (txnId : Nat) : InstanceM M (Finset PageKey) := do
  match (← get).activeTxns txnId with
  | some pages => return pages
  | none => throw .undefined

def beyondEndOfFile (call : String) : Exception :=
  .logicError ("DiskManager::" ++ call ++ ": page_id beyond end of file")

def logPage (txnId : Nat) (key : PageKey) : InstanceM M Unit := do
  let pool ← getPool key.objectId
  match pool.fetchPage key.pageId with
  | none => throw (beyondEndOfFile "ReadPage")
  | some (image, pool) =>
    setPool key.objectId pool
    let _ ← append (·.appendUpdate txnId key.objectId key.pageId image)

def flushPage (key : PageKey) : InstanceM M Unit := do
  let pool ← getPool key.objectId
  match pool.flushPage key.pageId with
  | none => throw (beyondEndOfFile "WritePage")
  | some pool => setPool key.objectId pool

def discardPage (key : PageKey) : InstanceM M Unit := do
  let pool ← getPool key.objectId
  match pool.discardPage key.pageId with
  | none => throw (beyondEndOfFile "ReadPage")
  | some pool => setPool key.objectId pool

-- Nobody else is inside the LogManager, so a flush never has to wait.
def flushThrough (lsn : Nat) : InstanceM M Unit := do
  let db ← get
  match db.log.flushThrough lsn with
  | none => throw .asleep
  | some log => set { db with log := log }

def releaseAll (txnId : Nat) : InstanceM M Unit :=
  modify fun db => { db with locks := db.locks.releaseAll txnId }

def erase (txnId : Nat) : InstanceM M Unit :=
  modify fun db => { db with activeTxns := Function.update db.activeTxns txnId none }

-- Commit from the first Update record to ReleaseAll, `pages` in the order in which they are gone through.
def commitPages (txnId : Nat) (pages : List PageKey) : InstanceM M Unit := do
  pages.forM (logPage txnId)
  let lsn ← append (·.appendCommit txnId)
  flushThrough lsn
  pages.forM flushPage
  releaseAll txnId

def abortPages (txnId : Nat) (pages : List PageKey) : InstanceM M Unit := do
  pages.forM discardPage
  let _ ← append (·.appendAbort txnId)
  releaseAll txnId

def acquireLock (txnId : Nat) (key : PageKey) (mode : LockMode) : InstanceM M Unit := do
  let db ← get
  match db.locks.acquireLock txnId key mode with
  | .granted next => set { db with locks := next }
  | .wait => throw .asleep
  | .die => throw (.transactionAborted txnId)

-- MarkDirty: the page is dirty, and the observer of this thread, if there is one, hears of it.
def markDirty (key : PageKey) : InstanceM M Unit := do
  let db ← get
  match db.observers key.objectId with
  | none => return ()
  | some txnId =>
    let pages ← dirtiedPages txnId
    set { db with activeTxns := Function.update db.activeTxns txnId (some (insert key pages)) }

def hasActiveTransaction (db : Instance M) : Bool :=
  (List.range db.nextTxnId).any fun txnId => (db.activeTxns txnId).isSome

end Instance

-- What ExecuteInCurrentTransaction does, one access at a time.
inductive Body (M R : Type)
  | done (result : R)
  | throw (error : Exception)
  | lock (key : PageKey) (mode : LockMode) (next : Body M R)
  | fetch (key : PageKey) (next : PageImage → Body M R)
  -- bytes stored in a page that is cached, and MarkDirty
  | write (key : PageKey) (image : PageImage) (next : Body M R)
  | newPage (objectId : Nat) (next : Nat → Body M R)
  | remember (update : M → M) (next : M → Body M R)
  -- the storage of a new object over its file, and RegisterObject
  | attach (objectId : Nat) (disk : DiskManager) (next : Body M R)
  | flushAll (objectId : Nat) (next : Body M R)
  | hasActive (next : Bool → Body M R)

inductive Command (M R : Type)
  | begin
  | commit
  | rollback
  | ddl (body : Body M R)
  | dml (body : Body M R)

-- A part of the code that touches one database only.
def onDb (side : Side) (program : InstanceM M α) : ProcessM M α := do
  let process ← get
  let (outcome, db) := program.exec (process.db side)
  set { process with db := Function.update process.db side db }
  outcome

def getCurrentTransaction : ProcessM M (Option (Side × Nat)) := do
  return (← get).current

def setCurrentTransaction (txn : Option (Side × Nat)) : ProcessM M Unit :=
  modify fun process => { process with current := txn }

-- LockPage goes to the lock table of the current transaction, not to that of the database.
def lockPage (key : PageKey) (mode : LockMode) : ProcessM M Unit := do
  match ← getCurrentTransaction with
  | none => return ()
  | some (owner, txnId) => onDb owner (Instance.acquireLock txnId key mode)

namespace Instance

def fetchPage (key : PageKey) : InstanceM M PageImage := do
  let pool ← getPool key.objectId
  match pool.fetchPage key.pageId with
  | none => throw (beyondEndOfFile "ReadPage")
  | some (image, pool) =>
    setPool key.objectId pool
    return image

def writePage (key : PageKey) (image : PageImage) : InstanceM M Unit := do
  let pool ← getPool key.objectId
  setPool key.objectId (pool.writeDirty key.pageId image)
  markDirty key

def newPage (objectId : Nat) : InstanceM M Nat := do
  let (pageId, pool) := (← getPool objectId).newPage
  setPool objectId pool
  markDirty ⟨objectId, pageId⟩
  return pageId

def remember (update : M → M) : InstanceM M M := do
  let db ← get
  set { db with memory := update db.memory }
  return db.memory

def attach (objectId : Nat) (disk : DiskManager) : InstanceM M Unit := setPool objectId { disk := disk }

-- a dirty page that is not cached is passed over
def flushAll (order : Order) (objectId : Nat) : InstanceM M Unit := do
  let pool ← getPool objectId
  (order.dirty pool.dirty).forM fun pageId => flushPage ⟨objectId, pageId⟩
  let pool ← getPool objectId
  setPool objectId { pool with dirty := ∅ }

end Instance

def Body.run (order : Order) (side : Side) : Body M R → ProcessM M R
  | .done result => return result
  | .throw error => MonadExcept.throw error
  | .lock key mode next => do
    lockPage key mode
    next.run order side
  | .fetch key next => do
    let image ← onDb side (Instance.fetchPage key)
    (next image).run order side
  | .write key image next => do
    onDb side (Instance.writePage key image)
    next.run order side
  | .newPage objectId next => do
    let pageId ← onDb side (Instance.newPage objectId)
    (next pageId).run order side
  | .remember update next => do
    let memory ← onDb side (Instance.remember update)
    (next memory).run order side
  | .attach objectId disk next => do
    onDb side (Instance.attach objectId disk)
    next.run order side
  | .flushAll objectId next => do
    onDb side (Instance.flushAll order objectId)
    next.run order side
  | .hasActive next => do
    let active ← onDb side (Instance.hasActiveTransaction <$> get)
    (next active).run order side

def beginTransaction (side : Side) : ProcessM M Nat := do
  match ← getCurrentTransaction with
  | some _ => throw SqlSession.alreadyActive
  | none =>
    let txnId ← onDb side Instance.begin
    setCurrentTransaction (some (side, txnId))
    return txnId

def notCurrent (call : String) : Exception :=
  .logicError ("TransactionManager::" ++ call ++ ": txn must be this calling thread's own active transaction (either it " ++
    "belongs to a different thread, or it was already committed/aborted)")

-- Commit of the database on `side`, whosever the transaction is: its pages are looked for here, its records are
-- appended here, and here its id is released and erased.
def commitTransaction (order : Order) (side : Side) (txn : Side × Nat) : ProcessM M Unit := do
  if (← getCurrentTransaction) ≠ some txn then throw (notCurrent "Commit")
  else
    onDb side Instance.clearObservers
    let pages ← onDb txn.1 (Instance.dirtiedPages txn.2)
    onDb side (Instance.commitPages txn.2 (order.byObject pages))
    setCurrentTransaction none
    onDb side (Instance.erase txn.2)

def abortTransaction (order : Order) (side : Side) (txn : Side × Nat) : ProcessM M Unit := do
  if (← getCurrentTransaction) ≠ some txn then throw (notCurrent "Abort")
  else
    onDb side Instance.clearObservers
    let pages ← onDb txn.1 (Instance.dirtiedPages txn.2)
    onDb side (Instance.abortPages txn.2 (order.byObject pages))
    setCurrentTransaction none
    onDb side (Instance.erase txn.2)

-- What `catch (...)` catches: a call that sleeps has not thrown, and behind undefined behaviour there is nothing.
def isThrown : Exception → Bool
  | .asleep | .undefined => false
  | _ => true

def autocommit (order : Order) (side : Side) (body : Body M R) : ProcessM M R := do
  match ← getCurrentTransaction with
  | some _ => body.run order side
  | none =>
    let txnId ← beginTransaction side
    tryCatch (do
      let result ← body.run order side
      commitTransaction order side (side, txnId)
      return result) fun e => do
        if isThrown e then abortTransaction order side (side, txnId)
        throw e

def execute [Inhabited R] (order : Order) (side : Side) : Command M R → ProcessM M R
  | .begin => do
    let _ ← beginTransaction side
    return default
  | .commit => do
    match ← getCurrentTransaction with
    | none => throw (.logicError "COMMIT: no active transaction on this thread")
    | some txn =>
      commitTransaction order side txn
      return default
  | .rollback => do
    match ← getCurrentTransaction with
    | none => throw (.logicError "ROLLBACK: no active transaction on this thread")
    | some txn =>
      abortTransaction order side txn
      return default
  | .ddl body => body.run order side
  | .dml body => autocommit order side body

/-- A call is the next line of the thread's program; one that does not come back ends the run. -/
structure Run (M R : Type) where
  process : Process M
  results : List (Side × Except Exception R) := []

def comesBack : Except Exception R → Bool
  | .ok _ => true
  | .error e => isThrown e

def step [Inhabited R] (order : Order) (state : Run M R) (call : Side × Command M R) : Option (Run M R) :=
  let (outcome, process) := (execute order call.1 call.2).exec state.process
  if comesBack outcome then some { process := process, results := state.results ++ [(call.1, outcome)] } else none

/-- Two processes that cannot be told apart by a call to this side: the database is the same, and so is g_current_txn,
which belongs to it. The other sides are what they were. -/
structure Same (side : Side) (rest rest' : Side → Instance M) (p q : Process M) : Prop where
  here : p.db side = q.db side
  current : p.current = q.current
  own : ∀ txn, p.current = some txn → txn.1 = side
  left : ∀ other, other ≠ side → p.db other = rest other
  right : ∀ other, other ≠ side → q.db other = rest' other

section Agree

variable {side : Side} {rest rest' : Side → Instance M}

theorem onDb_agrees (program : InstanceM M α) : Fallible.Agrees (Same side rest rest') (onDb side program) := by
  intro p q same
  have outcome : ∀ process : Process M, (onDb side program).exec process =
      ((program.exec (process.db side)).1,
        { process with db := Function.update process.db side (program.exec (process.db side)).2 }) := fun _ => rfl
  rw [outcome, outcome, same.here]
  refine ⟨rfl, ⟨by simp, same.current, same.own, fun other different => ?_, fun other different => ?_⟩⟩
  · rw [← same.left other different]
    exact Function.update_of_ne different _ _
  · rw [← same.right other different]
    exact Function.update_of_ne different _ _

theorem current_bind_agrees {next : Option (Side × Nat) → ProcessM M α}
    (each : ∀ current, (∀ txn, current = some txn → txn.1 = side) →
      Fallible.Agrees (Same side rest rest') (next current)) :
    Fallible.Agrees (Same side rest rest') (getCurrentTransaction >>= next) := by
  refine Fallible.Agrees.bind_of (fun p q same => ⟨p.current, same.own, rfl, ?_⟩) each
  rw [same.current]
  rfl

theorem setCurrent_agrees {txn : Option (Side × Nat)} (own : ∀ ref, txn = some ref → ref.1 = side) :
    Fallible.Agrees (Same side rest rest') (setCurrentTransaction txn) :=
  Fallible.Agrees.modify fun _ _ same => ⟨same.here, rfl, own, same.left, same.right⟩

theorem lockPage_agrees (key : PageKey) (mode : LockMode) :
    Fallible.Agrees (Same side rest rest') (lockPage key mode) := by
  refine current_bind_agrees fun current own => ?_
  cases current with
  | none => exact Fallible.Agrees.pure _
  | some txn =>
    obtain ⟨owner, txnId⟩ := txn
    cases own _ rfl
    exact onDb_agrees _

theorem body_agrees (order : Order) (body : Body M R) :
    Fallible.Agrees (Same side rest rest') (body.run order side) := by
  induction body with
  | done result => exact Fallible.Agrees.pure _
  | throw error => exact Fallible.Agrees.throw _
  | lock key mode next ih => exact Fallible.Agrees.bind (lockPage_agrees key mode) fun _ => ih
  | fetch key next ih => exact Fallible.Agrees.bind (onDb_agrees _) ih
  | write key image next ih => exact Fallible.Agrees.bind (onDb_agrees _) fun _ => ih
  | newPage objectId next ih => exact Fallible.Agrees.bind (onDb_agrees _) ih
  | remember update next ih => exact Fallible.Agrees.bind (onDb_agrees _) ih
  | attach objectId disk next ih => exact Fallible.Agrees.bind (onDb_agrees _) fun _ => ih
  | flushAll objectId next ih => exact Fallible.Agrees.bind (onDb_agrees _) fun _ => ih
  | hasActive next ih => exact Fallible.Agrees.bind (onDb_agrees _) ih

theorem begin_agrees : Fallible.Agrees (Same side rest rest') (beginTransaction side) := by
  refine current_bind_agrees fun current _ => ?_
  cases current with
  | some txn => exact Fallible.Agrees.throw _
  | none =>
    refine Fallible.Agrees.bind (onDb_agrees _) fun txnId => ?_
    refine Fallible.Agrees.bind (setCurrent_agrees ?_) fun _ => Fallible.Agrees.pure _
    rintro ref same
    cases same
    rfl

theorem ending_agrees (call : String) (endPages : Finset PageKey → InstanceM M Unit) {txn : Side × Nat}
    (own : txn.1 = side) :
    Fallible.Agrees (Same side rest rest') (do
      if (← getCurrentTransaction) ≠ some txn then throw (notCurrent call)
      else
        onDb side Instance.clearObservers
        let pages ← onDb txn.1 (Instance.dirtiedPages txn.2)
        onDb side (endPages pages)
        setCurrentTransaction none
        onDb side (Instance.erase txn.2)) := by
  obtain ⟨owner, txnId⟩ := txn
  cases own
  refine current_bind_agrees fun current _ => ?_
  split
  · exact Fallible.Agrees.throw _
  · refine Fallible.Agrees.bind (onDb_agrees _) fun _ => Fallible.Agrees.bind (onDb_agrees _) fun pages => ?_
    refine Fallible.Agrees.bind (onDb_agrees _) fun _ => ?_
    exact Fallible.Agrees.bind (setCurrent_agrees (by simp)) fun _ => onDb_agrees _

theorem commit_agrees (order : Order) {txn : Side × Nat} (own : txn.1 = side) :
    Fallible.Agrees (Same side rest rest') (commitTransaction order side txn) :=
  ending_agrees "Commit" _ own

theorem abort_agrees (order : Order) {txn : Side × Nat} (own : txn.1 = side) :
    Fallible.Agrees (Same side rest rest') (abortTransaction order side txn) :=
  ending_agrees "Abort" _ own

theorem autocommit_agrees (order : Order) (body : Body M R) :
    Fallible.Agrees (Same side rest rest') (autocommit order side body) := by
  refine current_bind_agrees fun current _ => ?_
  cases current with
  | some txn => exact body_agrees order body
  | none =>
    refine Fallible.Agrees.bind begin_agrees fun txnId => ?_
    refine Fallible.Agrees.tryCatch ?_ fun e => ?_
    · refine Fallible.Agrees.bind (body_agrees order body) fun result => ?_
      exact Fallible.Agrees.bind (commit_agrees order rfl) fun _ => Fallible.Agrees.pure _
    · dsimp only
      split
      · exact Fallible.Agrees.bind (abort_agrees order rfl) fun _ => Fallible.Agrees.throw _
      · exact Fallible.Agrees.throw _

theorem execute_agrees [Inhabited R] (order : Order) (command : Command M R) :
    Fallible.Agrees (Same side rest rest') (execute order side command) := by
  cases command with
  | begin => exact Fallible.Agrees.bind begin_agrees fun _ => Fallible.Agrees.pure _
  | commit =>
    refine current_bind_agrees fun current own => ?_
    cases current with
    | none => exact Fallible.Agrees.throw _
    | some txn => exact Fallible.Agrees.bind (commit_agrees order (own txn rfl)) fun _ => Fallible.Agrees.pure _
  | rollback =>
    refine current_bind_agrees fun current own => ?_
    cases current with
    | none => exact Fallible.Agrees.throw _
    | some txn => exact Fallible.Agrees.bind (abort_agrees order (own txn rfl)) fun _ => Fallible.Agrees.pure _
  | ddl body => exact body_agrees order body
  | dml body => exact autocommit_agrees order body

end Agree

/-- The calls addressed to one side, in a process that gets no others, give the same results and leave the same
database: its pages in memory and in the data files, its log, its catalog. -/
def Undisturbed [Inhabited R] (order : Order) (db : Side → Instance M) (calls : List (Side × Command M R))
    (state : Run M R) (side : Side) : Prop :=
  ∃ alone, run (step order) { process := { db := db } } (calls.filter fun call => call.1 = side) = some alone ∧
    alone.results = state.results.filter (fun result => result.1 = side) ∧
    alone.process.db side = state.process.db side

/-- No call is addressed to one side while a transaction of the other is open. -/
def Apart [Inhabited R] (order : Order) (db : Side → Instance M) (calls : List (Side × Command M R)) : Prop :=
  ∀ before call after, calls = before ++ call :: after →
    ∀ state, run (step order) { process := { db := db } } before = some state →
      ∀ txn, state.process.current = some txn → txn.1 = call.1

structure Mirrors (side : Side) (state alone : Run M R) : Prop where
  results : alone.results = state.results.filter fun result => result.1 = side
  db : alone.process.db side = state.process.db side
  mine : ∀ txn, state.process.current = some txn → txn.1 = side → alone.process.current = some txn
  none : (∀ txn, state.process.current = some txn → txn.1 ≠ side) → alone.process.current = none

section Mirror

variable [Inhabited R] {order : Order} {side : Side} {state next alone : Run M R} {command : Command M R}

theorem step_some {call : Side × Command M R} (stepped : step order state call = some next) :
    comesBack ((execute order call.1 call.2).exec state.process).1 = true ∧
      next = { process := ((execute order call.1 call.2).exec state.process).2
               results := state.results ++ [(call.1, ((execute order call.1 call.2).exec state.process).1)] } := by
  simp only [step, Option.ite_none_right_eq_some, Option.some.injEq] at stepped
  exact ⟨stepped.1, stepped.2.symm⟩

theorem Mirrors.here (mirrors : Mirrors side state alone)
    (own : ∀ txn, state.process.current = some txn → txn.1 = side)
    (stepped : step order state (side, command) = some next) :
    ∃ alone', step order alone (side, command) = some alone' ∧ Mirrors side next alone' := by
  obtain ⟨back, rfl⟩ := step_some stepped
  have current : state.process.current = alone.process.current := by
    cases found : state.process.current with
    | none => exact (mirrors.none (by simp [found])).symm
    | some txn => exact (mirrors.mine txn found (own txn found)).symm
  have same : Same side state.process.db alone.process.db state.process alone.process :=
    ⟨mirrors.db.symm, current, own, fun _ _ => rfl, fun _ _ => rfl⟩
  obtain ⟨alike, after⟩ := execute_agrees order command _ _ same
  dsimp only at back ⊢
  refine ⟨{ process := ((execute order side command).exec alone.process).2
            results := alone.results ++ [(side, ((execute order side command).exec alone.process).1)] },
    if_pos (alike ▸ back), ?_, after.here.symm, fun txn found _ => ?_, fun others => ?_⟩
  · rw [alike, mirrors.results, List.filter_append]
    simp
  · exact after.current ▸ found
  · by_contra some_txn
    obtain ⟨txn, found⟩ := Option.ne_none_iff_exists'.mp some_txn
    have there := after.current.trans found
    exact others txn there (after.own txn there)

theorem Mirrors.there {other : Side} (mirrors : Mirrors side state alone) (different : other ≠ side)
    (own : ∀ txn, state.process.current = some txn → txn.1 = other)
    (stepped : step order state (other, command) = some next) : Mirrors side next alone := by
  obtain ⟨-, rfl⟩ := step_some stepped
  have same : Same other state.process.db state.process.db state.process state.process :=
    ⟨rfl, rfl, own, fun _ _ => rfl, fun _ _ => rfl⟩
  have after := (execute_agrees order command _ _ same).2
  refine ⟨?_, ?_, fun txn found isMine => ?_, fun _ => ?_⟩
  · simp [mirrors.results, different]
  · exact mirrors.db.trans (after.left side (Ne.symm different)).symm
  · exact absurd ((after.own txn found).symm.trans isMine) different
  · exact mirrors.none fun txn found isMine => different ((own txn found).symm.trans isMine)

end Mirror

theorem databases_do_not_interfere [Inhabited R] (order : Order) (db : Side → Instance M)
    (calls : List (Side × Command M R)) (state : Run M R)
    (ran : run (step order) { process := { db := db } } calls = some state) (apart : Apart order db calls) (side : Side) :
    Undisturbed order db calls state side := by
  suffices mirrored : ∃ alone, run (step order) { process := { db := db } }
      (calls.filter fun call => call.1 = side) = some alone ∧ Mirrors side state alone by
    obtain ⟨alone, ranAlone, mirrors⟩ := mirrored
    exact ⟨alone, ranAlone, mirrors.results, mirrors.db⟩
  induction calls using List.reverseRecOn generalizing state with
  | nil =>
    cases ran
    exact ⟨_, rfl, rfl, rfl, by simp, by simp⟩
  | append_singleton calls call ih =>
    obtain ⟨middle, before, stepped⟩ := run_snoc.mp ran
    have own := apart calls call [] rfl middle before
    obtain ⟨alone, ranAlone, mirrors⟩ := ih middle before fun earlier other later split =>
      apart earlier other (later ++ [call]) (by simp [split])
    obtain ⟨addressed, command⟩ := call
    by_cases here : addressed = side
    · subst here
      obtain ⟨alone', stepped', mirrors'⟩ := mirrors.here own stepped
      refine ⟨alone', ?_, mirrors'⟩
      rw [List.filter_append, List.filter_cons_of_pos (by simp), List.filter_nil]
      exact run_snoc.mpr ⟨alone, ranAlone, stepped'⟩
    · refine ⟨alone, ?_, mirrors.there here own stepped⟩
      rw [List.filter_append, List.filter_cons_of_neg (by simp [here]), List.filter_nil, List.append_nil]
      exact ranAlone

theorem apart_of_everyStep [Inhabited R] {order : Order} {db : Side → Instance M} {calls : List (Side × Command M R)}
    {state : Run M R} (ran : run (step order) { process := { db := db } } calls = some state)
    (each : everyStep (step order) (fun state call _ => state.process.current.all fun txn => decide (txn.1 = call.1))
      { process := { db := db } } calls = true) : Apart order db calls := by
  intro before call after split middle reached txn found
  rw [split] at ran
  obtain ⟨middle', reached', onward⟩ := run_append_some.mp ran
  cases reached.symm.trans reached'
  obtain ⟨next, stepped, -⟩ := Option.bind_eq_some_iff.mp onward
  have test := everyStep_iff.mp each before call middle next ⟨after, by simp [split]⟩ reached stepped
  rw [found] at test
  exact of_decide_eq_true test

def emptyTables : Side → Instance Unit := fun _ =>
  { log := LogManager.open [], pools := fun objectId => if objectId = 0 then some { disk := {} } else none, memory := () }

def firstPages : Order where
  dirty pages := (List.range 4).filter (· ∈ pages)
  byObject keys := ((List.range 4).map (PageKey.mk 0)).filter (· ∈ keys)

def insertFirstRow : Body Unit Unit :=
  .newPage 0 fun pageId => .lock ⟨0, pageId⟩ .kExclusive (.write ⟨0, pageId⟩ (.ofBytes [1]) (.done ()))

def callsInTurn : List (Side × Command Unit Unit) :=
  [(.first, .begin), (.first, .dml insertFirstRow), (.first, .commit), (.second, .dml insertFirstRow)]

set_option maxRecDepth 100000 in
theorem databases_do_not_interfere_in_turn : ∃ state,
    run (step firstPages) { process := { db := emptyTables } } callsInTurn = some state ∧
      Undisturbed firstPages emptyTables callsInTurn state .second := by
  obtain ⟨state, ran⟩ := Option.isSome_iff_exists.mp (by decide +kernel :
    (run (step firstPages) { process := { db := emptyTables } } callsInTurn).isSome = true)
  have apart : Apart firstPages emptyTables callsInTurn := apart_of_everyStep ran (by decide +kernel)
  exact ⟨state, ran, databases_do_not_interfere firstPages emptyTables callsInTurn state ran apart .second⟩

set_option maxRecDepth 100000 in
/-- BEGIN on the first, INSERT on the second: alone, the second has committed when Execute returns. -/
theorem foreign_transaction_swallows_insert :
    ¬ ∀ (order : Order) (db : Side → Instance Unit) (calls : List (Side × Command Unit Unit)) (state : Run Unit Unit) side,
      run (step order) { process := { db := db } } calls = some state → Undisturbed order db calls state side := by
  intro always
  have ran : ((run (step firstPages) { process := { db := emptyTables } }
      [(.first, .begin), (.second, .dml insertFirstRow)]).map fun state =>
        decide ((state.process.db .second).log.file.content = [])) = some true := by decide +kernel
  have ranAlone : ((run (step firstPages) { process := { db := emptyTables } } [(.second, .dml insertFirstRow)]).map
      fun state => decide ((state.process.db .second).log.file.content = [])) = some false := by decide +kernel
  obtain ⟨state, reached, empty⟩ := Option.map_eq_some_iff.mp ran
  obtain ⟨alone, reachedAlone, -, same⟩ := always _ _ _ _ .second reached
  have filtered : ([(.first, .begin), (.second, .dml insertFirstRow)] : List (Side × Command Unit Unit)).filter
      (fun call => call.1 = .second) = [(.second, .dml insertFirstRow)] := rfl
  rw [filtered] at reachedAlone
  rw [reachedAlone, Option.map_some, same, empty] at ranAlone
  cases ranAlone

end FlintDB.SharedThread
