import FlintDB.Catalog.Catalog
import FlintDB.Storage.HeapFile
import FlintDB.Txn.LockManager

set_option autoImplicit false

-- The catalog and the storage of every object as the buffer pools show it to the running thread, with the page locks
-- its transaction takes. A B+-tree operation is here one step behind the lock on its header page: it takes node locks
-- too, but nobody holds one of them without holding the header's.

namespace FlintDB

open Lib

inductive ObjectStorage
  | heap (file : HeapFile)
  | index (tree : BPlusTree)

structure Database where
  catalog : Catalog := {}
  objects : Nat → Option ObjectStorage := fun _ => none
  locks : LockManager := {}
  -- what other transactions do to the lock table before each coming request of this thread is decided
  others : List (LockManager → LockManager) := []
  -- the transaction of the running thread, and those of all threads
  currentTransaction : Option Nat := none
  activeTxns : Finset Nat := ∅
  nextTxnId : Nat := 1

abbrev DatabaseM := Fallible Database Exception

namespace Database

def attach (db : Database) (objectId : Nat) (storage : ObjectStorage) : Database :=
  { db with objects := Function.update db.objects objectId (some storage) }

@[simp] theorem attach_catalog (db : Database) (objectId : Nat) (storage : ObjectStorage) :
    (db.attach objectId storage).catalog = db.catalog := rfl

@[simp] theorem attach_objects (db : Database) (objectId : Nat) (storage : ObjectStorage) :
    (db.attach objectId storage).objects = Function.update db.objects objectId (some storage) := rfl

-- LockPage: without a transaction there is nothing to lock. A request that waits is decided anew whenever another
-- transaction releases its locks, so the table it meets here is the one of its last attempt.
def lockPage (objectId pageId : Nat) (mode : LockMode) : DatabaseM Unit := do
  let db ← get
  match db.currentTransaction with
  | none => return ()
  | some txnId =>
    match ((db.others.head?.getD id) db.locks).acquireLock txnId ⟨objectId, pageId⟩ mode with
    | .granted next => set { db with locks := next, others := db.others.tail }
    | .wait => throw .asleep
    | .die => throw (.transactionAborted txnId)

def getHeapFile (objectId : Nat) : DatabaseM HeapFile := do
  match (← get).objects objectId with
  | some (.heap file) => return file
  | _ => throw .undefined

def storeHeapFile (objectId : Nat) (file : HeapFile) : DatabaseM Unit :=
  modify (·.attach objectId (.heap file))

-- InsertRecord on a page of the file, and MarkDirty.
def insertRecord (objectId pageId : Nat) (rowBytes : Bytes) : DatabaseM (Option RID) := do
  let file ← getHeapFile objectId
  match (file.pages pageId).insertRecord rowBytes with
  | some (slotId, page) =>
    storeHeapFile objectId (file.writePage pageId page)
    return some ⟨pageId, slotId⟩
  | none => return none

def insertIntoLastPage (objectId : Nat) (rowBytes : Bytes) : DatabaseM (Option RID) := do
  match (← getHeapFile objectId).pageIds.getLast? with
  | none => return none
  | some last =>
    lockPage objectId last .kExclusive
    insertRecord objectId last rowBytes

def insertIntoNewPage (objectId : Nat) (rowBytes : Bytes) : DatabaseM RID := do
  let (newPid, file) := (← getHeapFile objectId).newHeapPage
  storeHeapFile objectId file
  lockPage objectId newPid .kExclusive
  let file ← getHeapFile objectId
  storeHeapFile objectId { file with pageIds := file.pageIds ++ [newPid] }
  match ← insertRecord objectId newPid rowBytes with
  | some rid => return rid
  | none => throw (.logicError "HeapFile::Insert: row did not fit in a brand-new empty page")

def rowTooLarge : Exception :=
  .invalidArgument "HeapFile::Insert: row is larger than a page can ever hold"

-- HeapFile::Insert.
def heapInsert (objectId : Nat) (rowBytes : Bytes) : DatabaseM RID := do
  if HeapFile.kMaxRowSize < rowBytes.length then throw rowTooLarge
  else
    match ← insertIntoLastPage objectId rowBytes with
    | some rid => return rid
    | none => insertIntoNewPage objectId rowBytes

/-- HeapFile::GetRow. -/
def heapGetRow (objectId : Nat) (rid : RID) : DatabaseM (Option Bytes) := do
  let file ← getHeapFile objectId
  if rid.pageId ∈ file.pageIds then
    lockPage objectId rid.pageId .kShared
    return ((← getHeapFile objectId).pages rid.pageId).liveRecord rid.slotId
  else return none

def scanPage (objectId pageId : Nat) : DatabaseM (List (RID × Bytes)) := do
  lockPage objectId pageId .kShared
  return (← getHeapFile objectId).rowsOn pageId

/-- HeapFile::Scan. -/
def heapScan (objectId : Nat) : DatabaseM (List (RID × Bytes)) := do
  let file ← getHeapFile objectId
  Fallible.collect (scanPage objectId) file.pageIds

-- HeapFile::Delete.
def heapDelete (objectId : Nat) (rid : RID) : DatabaseM Bool := do
  let file ← getHeapFile objectId
  if rid.pageId ∈ file.pageIds then
    lockPage objectId rid.pageId .kExclusive
    tombstone
  else return false
where
  tombstone : DatabaseM Bool := do
    let file ← getHeapFile objectId
    let page := file.pages rid.pageId
    match page.liveRecord rid.slotId with
    | some _ =>
      storeHeapFile objectId (file.writePage rid.pageId (page.deleteRecord rid.slotId))
      return true
    | none => return false

def kRootHeaderPageId : Nat := 0

def ofBTree {α : Type} : Except BTreeError α → Except Exception α
  | .ok a => .ok a
  | .error .traversalStepsExceeded => .error (.runtimeError
      ("BPlusTree: traversal exceeded the maximum step count -- this can only mean a corrupted child or " ++
        "next-leaf pointer has formed a cycle (docs/DECISIONS.md D-054), since no uncorrupted tree over this " ++
        "page size could ever legitimately be this deep or have this many leaves in one chain"))
  | .error .undefined => .error .undefined

def getIndex (objectId : Nat) : DatabaseM BPlusTree := do
  match (← get).objects objectId with
  | some (.index tree) => return tree
  | _ => throw .undefined

def indexSearch (objectId : Nat) (key : Int) : DatabaseM (List RID) := do
  lockPage objectId kRootHeaderPageId .kShared
  let tree ← getIndex objectId
  ofBTree (tree.search key)

def modifyIndex {α : Type} (objectId : Nat) (operation : BTreeM α) : DatabaseM α := do
  lockPage objectId kRootHeaderPageId .kExclusive
  let tree ← getIndex objectId
  let (outcome, tree) := operation.exec tree
  modify (·.attach objectId (.index tree))
  ofBTree outcome

def indexInsert (objectId : Nat) (key : Int) (rid : RID) : DatabaseM Unit :=
  modifyIndex objectId (BPlusTree.insert key rid)

def indexDelete (objectId : Nat) (key : Int) (rid : RID) : DatabaseM Bool :=
  modifyIndex objectId (BPlusTree.delete key rid)

-- The object id of GetHeapFileForTable; no such table is a null pointer there.
def heapFileForTable (tableName : String) : DatabaseM Nat := do
  match (← get).catalog.findTable tableName with
  | some table => return table.heapObjectId
  | none => throw .undefined

def indexByName (indexName : String) : DatabaseM Nat := do
  match (← get).catalog.findIndex indexName with
  | some index => return index.objectId
  | none => throw .undefined

def createTable (name : String) (columns : List ColumnDef) (primaryKeyColumn : Option String) :
    DatabaseM Nat := do
  let db ← get
  let (heapId, catalog) ← db.catalog.createTable name columns primaryKeyColumn
  set ({ db with catalog := catalog }.attach heapId (.heap {}))
  if primaryKeyColumn.isSome then
    match catalog.primaryKeyIndex name with
    | some index => modify (·.attach index.objectId (.index {}))
    | none => throw .undefined
  return heapId

def createIndex (name tableName columnName : String) (populate : Nat → DatabaseM Unit) : DatabaseM Nat := do
  let db ← get
  let (objectId, catalog) ← db.catalog.createIndex name tableName columnName
  set ({ db with catalog := catalog }.attach objectId (.index {}))
  populate objectId
  return objectId

end Database

end FlintDB
