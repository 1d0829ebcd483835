import FlintDB.Storage.HeapFile
import FlintDB.Txn.CallSystem

set_option autoImplicit false

-- Insert, Delete and Scan with their locks, the data-file copies that an abort brings back, and a journal of what the
-- calls did, which no call reads.

namespace FlintDB

open Lib

inductive HeapNote
  | inserted (txnId : Nat) (rid : RID) (row : Bytes)
  | deleted (txnId : Nat) (rid : RID)
  | committed (txnId : Nat)
  | aborted (txnId : Nat)
  deriving DecidableEq

structure HeapStore where
  file : HeapFile := {}
  -- what is in the data file; a page that was only allocated is all zero there
  saved : Nat → Page := fun _ => {}
  dirtied : Nat → List Nat := fun _ => []
  journal : List HeapNote := []
  -- the Insert this transaction is in found no page in page_ids_ and has yet to append its own
  foundEmpty : Nat → Bool := fun _ => false

inductive HeapError
  | rowTooLarge
  | didNotFit
  deriving DecidableEq

inductive HeapCall
  | insert (row : Bytes)
  | delete (rid : RID)
  | scan
  -- A lock that the transaction takes on a page of another file.
  | elsewhere (key : PageKey) (mode : LockMode)
  deriving DecidableEq

inductive HeapResult
  | inserted (rid : RID)
  | deleted (found : Bool)
  | rows (rows : List (RID × Bytes))
  | locked

abbrev HeapM := Fallible HeapStore HeapError

abbrev HeapProgram := Program PageKey LockMode HeapStore HeapError

namespace HeapStore

def markDirty (store : HeapStore) (txnId pageId : Nat) : HeapStore :=
  { store with dirtied := Function.update store.dirtied txnId (pageId :: store.dirtied txnId) }

def note (store : HeapStore) (entry : HeapNote) : HeapStore :=
  { store with journal := store.journal ++ [entry] }

def writePage (store : HeapStore) (pageId : Nat) (page : Page) : HeapStore :=
  { store with file := store.file.writePage pageId page }

-- The actions of the calls, each on its own

def lastPage (txnId : Nat) : HeapM (Option Nat) := do
  let store ← get
  let last := store.file.pageIds.getLast?
  set { store with foundEmpty := Function.update store.foundEmpty txnId last.isNone }
  return last

-- The caller has the page exclusively, so nobody looks between InsertRecord and MarkDirty.
def insertRecord (txnId pageId : Nat) (row : Bytes) : HeapM (Option RID) := do
  let store ← get
  match (store.file.pages pageId).insertRecord row with
  | none => return none
  | some (slotId, page) =>
    set (((store.writePage pageId page).markDirty txnId pageId).note (.inserted txnId ⟨pageId, slotId⟩ row))
    return some ⟨pageId, slotId⟩

def newHeapPage (txnId : Nat) : HeapM Nat := do
  let store ← get
  let (pageId, file) := store.file.newHeapPage
  set ({ store with file := file }.markDirty txnId pageId)
  return pageId

def pushPage (txnId pageId : Nat) : HeapM Unit := do
  let store ← get
  set { store with file := { store.file with pageIds := store.file.pageIds ++ [pageId] }
                   foundEmpty := Function.update store.foundEmpty txnId false }

def ownsPage (pageId : Nat) : HeapM Bool := do return pageId ∈ (← get).file.pageIds

def deleteRecord (txnId : Nat) (rid : RID) : HeapM Bool := do
  let store ← get
  match (store.file.pages rid.pageId).liveRecord rid.slotId with
  | none => return false
  | some _ =>
    let page := (store.file.pages rid.pageId).deleteRecord rid.slotId
    set (((store.writePage rid.pageId page).markDirty txnId rid.pageId).note (.deleted txnId rid))
    return true

-- FlushPages over the transaction's pages.
def flushPages (store : HeapStore) (txnId : Nat) (pageId : Nat) : Page :=
  if pageId ∈ store.dirtied txnId then store.file.pages pageId else store.saved pageId

-- DiscardPage over the transaction's pages.
def discardPages (store : HeapStore) (txnId : Nat) (pageId : Nat) : Page :=
  if pageId ∈ store.dirtied txnId then store.saved pageId else store.file.pages pageId

-- Commit forces the transaction's pages to the data file; Abort reads them back from it.
def finish (txnId : Nat) (commits : Bool) (store : HeapStore) : HeapStore :=
  if commits then note { store with saved := store.flushPages txnId } (.committed txnId)
  else note { store with file := { store.file with pages := store.discardPages txnId } } (.aborted txnId)

end HeapStore

namespace HeapProgram

open Program

variable (objectId txnId : Nat)

-- InsertRecord on a page that has just been allocated.
def insertFirst (pid : Nat) (row : Bytes) : HeapProgram HeapResult := do
  match ← whole (HeapStore.insertRecord txnId pid row) with
  | some rid => return .inserted rid
  | none => .throw .didNotFit

def pushAndInsert (pid : Nat) (row : Bytes) : HeapProgram HeapResult := do
  whole (HeapStore.pushPage txnId pid)
  insertFirst txnId pid row

def insertOnNewPage (row : Bytes) : HeapProgram HeapResult := do
  let pid ← whole (HeapStore.newHeapPage txnId)
  acquire ⟨objectId, pid⟩ .kExclusive
  pushAndInsert txnId pid row

def insertInto (last : Nat) (row : Bytes) : HeapProgram HeapResult := do
  match ← whole (HeapStore.insertRecord txnId last row) with
  | some rid => return .inserted rid
  | none => insertOnNewPage objectId txnId row

def insert (row : Bytes) : HeapProgram HeapResult :=
  if HeapFile.kMaxRowSize < row.length then .throw .rowTooLarge
  else do
    match ← whole (HeapStore.lastPage txnId) with
    | some last =>
      acquire ⟨objectId, last⟩ .kExclusive
      insertInto objectId txnId last row
    | none => insertOnNewPage objectId txnId row

def deleteFrom (rid : RID) : HeapProgram HeapResult := do
  return .deleted (← whole (HeapStore.deleteRecord txnId rid))

def delete (rid : RID) : HeapProgram HeapResult := do
  if ← whole (HeapStore.ownsPage rid.pageId) then
    acquire ⟨objectId, rid.pageId⟩ .kExclusive
    deleteFrom txnId rid
  else return .deleted false

def scanPages : List Nat → List (RID × Bytes) → HeapProgram HeapResult
  | [], out => return .rows out
  | pid :: rest, out => do
    acquire ⟨objectId, pid⟩ .kShared
    let store ← whole get
    scanPages rest (out ++ store.file.rowsOn pid)

def scan : HeapProgram HeapResult := do
  let store ← whole get
  scanPages objectId store.file.pageIds []

def elsewhere (key : PageKey) (mode : LockMode) : HeapProgram HeapResult :=
  if key.objectId = objectId then return .locked
  else do
    acquire key mode
    return .locked

end HeapProgram

def HeapCall.program (objectId txnId : Nat) : HeapCall → HeapProgram HeapResult
  | insert row => HeapProgram.insert objectId txnId row
  | delete rid => HeapProgram.delete objectId txnId rid
  | scan => HeapProgram.scan objectId
  | elsewhere key mode => HeapProgram.elsewhere objectId key mode

def HeapCall.interface (objectId : Nat) : CallInterface HeapCall Bool HeapStore HeapError HeapResult where
  program txnId call := call.program objectId txnId
  finish := HeapStore.finish

abbrev HeapSystem := CallSystem HeapCall HeapStore HeapError HeapResult

end FlintDB
