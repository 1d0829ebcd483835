import FlintDB.Lib.Replay
import FlintDB.Lib.Run
import FlintDB.Storage.BufferPool
import FlintDB.Txn.LockManager
import FlintDB.Wal.LogManager

set_option autoImplicit false

-- Each transaction runs on its own thread. A step is what one thread does between two points where another may run:
-- one AcquireLock, one page access, one log append, one page write, one ReleaseAll.

namespace FlintDB

open Lib

inductive Phase
  -- Begin: an id is taken, the Begin record is not appended yet
  | beginning
  | running
  -- Commit: Update records still to append, FlushThrough, pages still to flush
  | logging (pending : Finset PageKey)
  | forcing (commitLsn : Nat)
  | flushing (pending : Finset PageKey)
  -- Abort: pages still to discard, then ReleaseAll after the Abort record
  | discarding (pending : Finset PageKey)
  | discarded
  deriving DecidableEq

-- The pages Commit or Abort has still to come to.
def Phase.pending : Phase → Finset PageKey
  | .logging pending | .flushing pending | .discarding pending => pending
  | _ => ∅

structure Transaction where
  phase : Phase := .beginning
  dirtiedPages : Finset PageKey := ∅
  deriving DecidableEq

-- A thread between setting and clearing flush_in_progress_. Its fsync starts after the file had `startLength` bytes,
-- so that is the least it covers.
structure Flusher where
  txnId : Nat
  toCover : Nat
  startLength : Nat
  fsynced : Bool := false
  deriving DecidableEq

structure Engine where
  log : LogManager
  pools : Nat → Option BufferPool
  locks : LockManager := {}
  activeTxns : Nat → Option Transaction := fun _ => none
  nextTxnId : Nat := 1
  flusher : Option Flusher := none

inductive Event
  | begin (txnId : Nat)
  | appendBegin (txnId : Nat)
  | lock (txnId : Nat) (key : PageKey) (mode : LockMode)
  | read (txnId : Nat) (key : PageKey) (image : PageImage)
  | write (txnId : Nat) (key : PageKey) (image : PageImage)
  | allocate (txnId : Nat) (key : PageKey)
  | commit (txnId : Nat)
  | appendUpdate (txnId : Nat) (key : PageKey) (image : PageImage)
  | appendCommit (txnId : Nat)
  | flushBegin (txnId : Nat)
  | fsync (txnId : Nat) (covered : Nat)
  | flushEnd (txnId : Nat)
  | flushReturn (txnId : Nat)
  | flushPage (txnId : Nat) (key : PageKey)
  | flushPageTorn (txnId : Nat) (key : PageKey) (written : Nat)
  | commitRelease (txnId : Nat)
  | abort (txnId : Nat)
  | discardPage (txnId : Nat) (key : PageKey)
  | appendAbort (txnId : Nat)
  | abortRelease (txnId : Nat)
  deriving DecidableEq

namespace Event

def txnId : Event → Nat
  | begin txnId | appendBegin txnId | lock txnId _ _ | read txnId _ _ | write txnId _ _
  | allocate txnId _ | commit txnId | appendUpdate txnId _ _ | appendCommit txnId
  | flushBegin txnId | fsync txnId _ | flushEnd txnId | flushReturn txnId | flushPage txnId _
  | flushPageTorn txnId _ _ | commitRelease txnId | abort txnId | discardPage txnId _
  | appendAbort txnId | abortRelease txnId => txnId

-- What the event did to a page. A page starts as zeros.
def access : Event → Option (Access PageKey PageImage)
  | read _ key image => some (.read key image)
  | write _ key image => some (.write key image)
  | allocate _ key => some (.write key .zero)
  | _ => none

end Event

/-- The accesses of one transaction, in order. -/
def accessesOf (txnId : Nat) (events : List Event) : List (Access PageKey PageImage) :=
  events.filterMap fun event => if event.txnId = txnId then event.access else none

/-- The committed transactions in the order of their ReleaseAll. -/
def released (events : List Event) : List Nat :=
  events.filterMap fun event =>
    match event with
    | .commitRelease txnId => some txnId
    | _ => none

namespace Engine

/-- A fresh TransactionManager over an opened log and opened data files, nothing cached yet. -/
def start (log : LogManager) (files : Nat → Option DiskManager) : Engine where
  log := log
  pools objectId := (files objectId).map fun disk => { disk := disk }

def setTxn (s : Engine) (txnId : Nat) (txn : Transaction) : Engine :=
  { s with activeTxns := Function.update s.activeTxns txnId (some txn) }

def setPool (s : Engine) (objectId : Nat) (pool : BufferPool) : Engine :=
  { s with pools := Function.update s.pools objectId (some pool) }

/-- The content of a page as a thread sees it, all zero before it is allocated. -/
def content (s : Engine) (key : PageKey) : PageImage :=
  match s.pools key.objectId with
  | none => .zero
  | some pool => pool.content key.pageId

def onDisk (s : Engine) (key : PageKey) : PageImage :=
  match s.pools key.objectId with
  | none => .zero
  | some pool => pool.disk.image key.pageId

-- Cached and marked dirty, so that FlushPages is going to write it.
def Unflushed (s : Engine) (key : PageKey) : Prop :=
  ∃ pool, s.pools key.objectId = some pool ∧ pool.pages key.pageId ≠ none ∧
    key.pageId ∈ pool.dirty

def finish (s : Engine) (txnId : Nat) : Engine :=
  { s with
    locks := s.locks.releaseAll txnId
    activeTxns := Function.update s.activeTxns txnId none }

def step (s : Engine) : Event → Option Engine
  | .begin txnId =>
    if txnId = s.nextTxnId ∧ txnId + 1 < 2 ^ 64 then
      some { s.setTxn txnId {} with nextTxnId := txnId + 1 }
    else none
  | .appendBegin txnId => do
    let txn ← s.activeTxns txnId
    let (log, _) ← s.log.appendBegin txnId
    if txn.phase = .beginning then
      some { s.setTxn txnId { txn with phase := .running } with log := log }
    else none
  -- A refused request changes nothing, and its thread may go on as it likes; one that waits is a
  -- request that is repeated later.
  | .lock txnId key mode => do
    let txn ← s.activeTxns txnId
    if txn.phase = .running then
      match s.locks.acquireLock txnId key mode with
      | .granted next => some { s with locks := next }
      | .wait => some s
      | .die => some s
    else none
  | .read txnId key image => do
    let txn ← s.activeTxns txnId
    let pool ← s.pools key.objectId
    let (found, pool) ← pool.fetchPage key.pageId
    if txn.phase = .running ∧ s.locks.Holds txnId key ∧ found = image then
      some (s.setPool key.objectId pool)
    else none
  | .write txnId key image => do
    let txn ← s.activeTxns txnId
    let pool ← s.pools key.objectId
    let (_, pool) ← pool.fetchPage key.pageId
    if txn.phase = .running ∧ s.locks.HoldsExclusive txnId key then
      some ((s.setPool key.objectId (pool.writeDirty key.pageId image)).setTxn txnId
        { txn with dirtiedPages := insert key txn.dirtiedPages })
    else none
  -- NewPage, while page ids last, and the LockPage that follows it: nobody else can name the page
  -- in between, so the lock is free.
  | .allocate txnId key => do
    let txn ← s.activeTxns txnId
    let pool ← s.pools key.objectId
    let (pageId, next) := pool.newPage
    if txn.phase = .running ∧ pool.disk.numPages + 1 < 2 ^ 32 ∧ key.pageId = pageId then
      match s.locks.acquireLock txnId key .kExclusive with
      | .granted locks =>
        some { (s.setPool key.objectId next).setTxn txnId
          { txn with dirtiedPages := insert key txn.dirtiedPages } with locks := locks }
      | .wait => none
      | .die => none
    else none
  | .commit txnId => do
    let txn ← s.activeTxns txnId
    if txn.phase = .running then
      some (s.setTxn txnId { txn with phase := .logging txn.dirtiedPages })
    else none
  | .appendUpdate txnId key image => do
    let txn ← s.activeTxns txnId
    let pool ← s.pools key.objectId
    let (found, pool) ← pool.fetchPage key.pageId
    let (log, _) ← s.log.appendUpdate txnId key.objectId key.pageId image
    match txn.phase with
    | .logging pending =>
      if key ∈ pending ∧ found = image then
        some { (s.setPool key.objectId pool).setTxn txnId
          { txn with phase := .logging (pending.erase key) } with log := log }
      else none
    | _ => none
  | .appendCommit txnId => do
    let txn ← s.activeTxns txnId
    let (log, lsn) ← s.log.appendCommit txnId
    if txn.phase = .logging ∅ then
      some { s.setTxn txnId { txn with phase := .forcing lsn } with log := log }
    else none
  | .flushBegin txnId => do
    let txn ← s.activeTxns txnId
    match txn.phase with
    | .forcing lsn =>
      if s.log.durableLsn < lsn ∧ s.log.flushInProgress = false then
        let (log, toCover) := s.log.flushBegin lsn
        some { s with
          log := log
          flusher := some { txnId, toCover, startLength := s.log.file.content.length } }
      else none
    | _ => none
  | .fsync txnId covered => do
    let flusher ← s.flusher
    if flusher.txnId = txnId ∧ flusher.startLength ≤ covered ∧
        covered ≤ s.log.file.content.length then
      some { s with
        log := { s.log with
          file := { s.log.file with synced := max s.log.file.synced covered } }
        flusher := some { flusher with fsynced := true } }
    else none
  | .flushEnd txnId => do
    let flusher ← s.flusher
    if flusher.txnId = txnId ∧ flusher.fsynced = true then
      some { s with log := s.log.flushEnd flusher.toCover, flusher := none }
    else none
  | .flushReturn txnId => do
    let txn ← s.activeTxns txnId
    match txn.phase with
    | .forcing lsn =>
      if lsn ≤ s.log.durableLsn ∧ (∀ flusher, s.flusher = some flusher → flusher.txnId ≠ txnId) then
        some (s.setTxn txnId { txn with phase := .flushing txn.dirtiedPages })
      else none
    | _ => none
  | .flushPage txnId key => do
    let txn ← s.activeTxns txnId
    let pool ← s.pools key.objectId
    let pool ← pool.flushPage key.pageId
    match txn.phase with
    | .flushing pending =>
      if key ∈ pending then
        some ((s.setPool key.objectId pool).setTxn txnId
          { txn with phase := .flushing (pending.erase key) })
      else none
    | _ => none
  | .flushPageTorn txnId key written => do
    let txn ← s.activeTxns txnId
    let pool ← s.pools key.objectId
    let pool ← pool.flushPageTorn key.pageId written
    match txn.phase with
    | .flushing pending => if key ∈ pending then some (s.setPool key.objectId pool) else none
    | _ => none
  | .commitRelease txnId => do
    let txn ← s.activeTxns txnId
    if txn.phase = .flushing ∅ then some (s.finish txnId) else none
  | .abort txnId => do
    let txn ← s.activeTxns txnId
    if txn.phase = .running then
      some (s.setTxn txnId { txn with phase := .discarding txn.dirtiedPages })
    else none
  | .discardPage txnId key => do
    let txn ← s.activeTxns txnId
    let pool ← s.pools key.objectId
    let pool ← pool.discardPage key.pageId
    match txn.phase with
    | .discarding pending =>
      if key ∈ pending then
        some ((s.setPool key.objectId pool).setTxn txnId
          { txn with phase := .discarding (pending.erase key) })
      else none
    | _ => none
  | .appendAbort txnId => do
    let txn ← s.activeTxns txnId
    let (log, _) ← s.log.appendAbort txnId
    if txn.phase = .discarding ∅ then
      some { s.setTxn txnId { txn with phase := .discarded } with log := log }
    else none
  | .abortRelease txnId => do
    let txn ← s.activeTxns txnId
    if txn.phase = .discarded then some (s.finish txnId) else none

end Engine

end FlintDB
