import FlintDB.Sql.Executor

set_option autoImplicit false

-- One thread's statements with the transactions around them. What Commit and Abort do to the log is the business of
-- the engine's model; here a commit brings the data files up to date, and an abort brings their pages back.

namespace FlintDB

open Lib

def ObjectStorage.revert : ObjectStorage → ObjectStorage → ObjectStorage
  | .heap start, .heap file => .heap (start.revert file)
  | .index start, .index tree => .index (start.revert tree)
  | _, storage => storage

def ObjectStorage.unflushed : ObjectStorage → ObjectStorage
  | .heap file => .heap { allocated := file.allocated }
  | .index tree => .index (BPlusTree.revert {} tree)

structure SqlSession where
  db : Database := {}
  -- what the data files of the objects hold
  files : Nat → Option ObjectStorage := fun _ => none

abbrev SqlSessionM := Fallible SqlSession Exception

namespace SqlSession

def onDatabase {α : Type} (program : DatabaseM α) : SqlSessionM α := do
  let session ← get
  let (outcome, db) := program.exec session.db
  set { session with db := db }
  outcome

def alreadyActive : Exception :=
  .logicError ("TransactionManager::Begin: this thread already has an active transaction -- Phase 4 allows one " ++
    "transaction per thread at a time (not nested/overlapping transactions on the same thread), though " ++
    "different threads may each have their own active transaction simultaneously")

def beginTransaction : SqlSessionM Nat := do
  let session ← get
  match session.db.currentTransaction with
  | some _ => throw alreadyActive
  | none =>
    let txnId := session.db.nextTxnId
    set { session with db := { session.db with
      currentTransaction := some txnId
      activeTxns := insert txnId session.db.activeTxns
      nextTxnId := txnId + 1 } }
    return txnId

-- ReleaseAll, and the thread has no transaction any more.
def finish (db : Database) (txnId : Nat) : Database :=
  { db with
    locks := db.locks.releaseAll txnId
    currentTransaction := none
    activeTxns := db.activeTxns.erase txnId }

def commitTransaction (txnId : Nat) : SqlSessionM Unit :=
  modify fun session => { db := finish session.db txnId, files := session.db.objects }

def revertObject : Option ObjectStorage → Option ObjectStorage → Option ObjectStorage
  | some file, some storage => some (file.revert storage)
  | _, storage => storage

def abortTransaction (txnId : Nat) : SqlSessionM Unit :=
  modify fun session =>
    { session with db := finish { session.db with
        objects := fun objectId => revertObject (session.files objectId) (session.db.objects objectId) } txnId }

def executeBegin : SqlSessionM ExecuteResult := do
  let _ ← beginTransaction
  return {}

def executeCommit : SqlSessionM ExecuteResult := do
  match (← get).db.currentTransaction with
  | none => throw (.logicError "COMMIT: no active transaction on this thread")
  | some txnId =>
    commitTransaction txnId
    return {}

def executeRollback : SqlSessionM ExecuteResult := do
  match (← get).db.currentTransaction with
  | none => throw (.logicError "ROLLBACK: no active transaction on this thread")
  | some txnId =>
    abortTransaction txnId
    return {}

def orUnflushed : Option ObjectStorage → Option ObjectStorage → Option ObjectStorage
  | some file, _ => some file
  | none, storage => storage.map ObjectStorage.unflushed

-- CREATE TABLE and CREATE INDEX write their pages themselves before they return.
def executeDdl (program : DatabaseM ExecuteResult) : SqlSessionM ExecuteResult :=
  tryCatch (do
    let result ← onDatabase program
    modify fun session => { session with files := session.db.objects }
    return result) fun e => do
      modify fun session => { session with
        files := fun objectId => orUnflushed (session.files objectId) (session.db.objects objectId) }
      throw e

def executeAutocommit (program : DatabaseM ExecuteResult) : SqlSessionM ExecuteResult := do
  match (← get).db.currentTransaction with
  | some _ => onDatabase program
  | none =>
    let txnId ← beginTransaction
    tryCatch (do
      let result ← onDatabase program
      commitTransaction txnId
      return result) fun e => do
        abortTransaction txnId
        throw e

def execute : Statement → SqlSessionM ExecuteResult
  | .begin => executeBegin
  | .commit => executeCommit
  | .rollback => executeRollback
  | .createTable stmt => executeDdl (executeCreateTable stmt)
  | .createIndex stmt => executeDdl (executeCreateIndex stmt)
  | .insert stmt => executeAutocommit (executeInsert stmt)
  | .select stmt => executeAutocommit (executeSelect stmt)
  | .update stmt => executeAutocommit (executeUpdate stmt)
  | .delete stmt => executeAutocommit (executeDelete stmt)

end SqlSession

end FlintDB
