import FlintDB.Sql.Executor

set_option autoImplicit false

-- While no other transaction holds an exclusive lock, every reading call returns what the storage holds and leaves
-- everything but the lock table as it was.

namespace FlintDB

open Lib Fallible

namespace Database

/-- What the running thread has to itself: no other transaction moves or holds an exclusive lock, and only
`guests` hold any lock at all. A thread without a transaction takes no locks. -/
structure Undisturbed (guests : Nat → PageKey → Prop) (db : Database) : Prop where
  still : db.others = []
  consistent : db.locks.Consistent
  noWriter : ∀ txnId, db.currentTransaction = some txnId →
    ∀ other key, db.locks.HoldsExclusive other key → other = txnId
  guests : ∀ txnId, db.currentTransaction = some txnId →
    ∀ other key, db.locks.Holds other key → other = txnId ∨ guests other key

/-- Undisturbed, with this catalog and this storage. -/
structure Shows (guests : Nat → PageKey → Prop) (catalog : Catalog) (objects : Nat → Option ObjectStorage)
    (db : Database) : Prop where
  undisturbed : db.Undisturbed guests
  catalog_eq : db.catalog = catalog
  objects_eq : db.objects = objects

theorem lockPage_none {db : Database} (noTransaction : db.currentTransaction = none) (objectId pageId : Nat)
    (mode : LockMode) : (lockPage objectId pageId mode).exec db = (.ok (), db) := by
  rw [lockPage, exec_bind_ok (exec_get db)]
  simp only [noTransaction]
  rfl

theorem lockPage_granted {db : Database} {txnId : Nat} {next : LockManager} (running : db.currentTransaction = some txnId)
    (still : db.others = []) {objectId pageId : Nat} {mode : LockMode}
    (granted : db.locks.acquireLock txnId ⟨objectId, pageId⟩ mode = .granted next) :
    (lockPage objectId pageId mode).exec db = (.ok (), { db with locks := next }) := by
  rw [lockPage, exec_bind_ok (exec_get db)]
  simp only [running, still, List.head?_nil, Option.getD_none, id_eq, granted, List.tail_nil]
  rw [exec_set, ← still]

theorem Undisturbed.grant {guests : Nat → PageKey → Prop} {db : Database} {txnId : Nat} {next : LockManager}
    (undisturbed : db.Undisturbed guests) (running : db.currentTransaction = some txnId) {key : PageKey}
    {mode : LockMode} (granted : db.locks.acquireLock txnId key mode = .granted next) :
    ({ db with locks := next } : Database).Undisturbed guests := by
  have spec := LockManager.acquireLock_spec undisturbed.consistent granted
  refine ⟨undisturbed.still, spec.consistent, ?_, ?_⟩
  · intro current isCurrent other key' exclusive
    have same : current = txnId := Option.some.inj (isCurrent.symm.trans running)
    rcases (spec.exclusive_iff other key').mp exclusive with before | ⟨rfl, -, -⟩
    · exact undisturbed.noWriter current isCurrent other key' before
    · exact same.symm
  · intro current isCurrent other key' held
    have same : current = txnId := Option.some.inj (isCurrent.symm.trans running)
    rcases (spec.holds_iff other key').mp held with before | ⟨rfl, -⟩
    · exact undisturbed.guests current isCurrent other key' before
    · exact .inl same.symm

section Reads

variable {guests : Nat → PageKey → Prop} {catalog : Catalog} {objects : Nat → Option ObjectStorage}

theorem lockPage_shared (objectId pageId : Nat) :
    Yields (Shows guests catalog objects) (lockPage objectId pageId .kShared) () := by
  rintro db ⟨undisturbed, catalog_eq, objects_eq⟩
  cases running : db.currentTransaction with
  | none => exact ⟨db, lockPage_none running objectId pageId .kShared, undisturbed, catalog_eq, objects_eq⟩
  | some txnId =>
    obtain ⟨next, granted⟩ := LockManager.acquireLock_of_free (LockManager.no_conflict_shared
      fun other => undisturbed.noWriter txnId running other ⟨objectId, pageId⟩)
    exact ⟨_, lockPage_granted running undisturbed.still granted, undisturbed.grant running granted, catalog_eq,
      objects_eq⟩

theorem getHeapFile_yields {objectId : Nat} {file : HeapFile} (stored : objects objectId = some (.heap file)) :
    Yields (Shows guests catalog objects) (getHeapFile objectId) file := by
  rintro db shows
  refine ⟨db, ?_, shows⟩
  rw [getHeapFile, exec_bind_ok (exec_get db), shows.objects_eq, stored]
  rfl

theorem getIndex_yields {objectId : Nat} {tree : BPlusTree} (stored : objects objectId = some (.index tree)) :
    Yields (Shows guests catalog objects) (getIndex objectId) tree := by
  rintro db shows
  refine ⟨db, ?_, shows⟩
  rw [getIndex, exec_bind_ok (exec_get db), shows.objects_eq, stored]
  rfl

theorem heapFileForTable_yields {tableName : String} {table : TableInfo}
    (found : catalog.findTable tableName = some table) :
    Yields (Shows guests catalog objects) (heapFileForTable tableName) table.heapObjectId := by
  rintro db shows
  refine ⟨db, ?_, shows⟩
  rw [heapFileForTable, exec_bind_ok (exec_get db), shows.catalog_eq, found]
  rfl

theorem indexByName_yields {indexName : String} {index : IndexInfo}
    (found : catalog.findIndex indexName = some index) :
    Yields (Shows guests catalog objects) (indexByName indexName) index.objectId := by
  rintro db shows
  refine ⟨db, ?_, shows⟩
  rw [indexByName, exec_bind_ok (exec_get db), shows.catalog_eq, found]
  rfl

theorem heapScan_yields {objectId : Nat} {file : HeapFile} (stored : objects objectId = some (.heap file)) :
    Yields (Shows guests catalog objects) (heapScan objectId) file.rows := by
  apply Yields.bind (getHeapFile_yields stored)
  apply Yields.collect
  intro pageId _
  apply Yields.bind (lockPage_shared objectId pageId)
  apply Yields.bind (getHeapFile_yields stored)
  exact Yields.pure _

theorem heapGetRow_yields {objectId : Nat} {file : HeapFile} (stored : objects objectId = some (.heap file))
    (rid : RID) : Yields (Shows guests catalog objects) (heapGetRow objectId rid) (file.getRow rid) := by
  apply Yields.bind (getHeapFile_yields stored)
  rw [HeapFile.getRow]
  split
  · apply Yields.bind (lockPage_shared objectId rid.pageId)
    apply Yields.bind (getHeapFile_yields stored)
    exact Yields.pure _
  · exact Yields.pure none

theorem indexSearch_yields {objectId : Nat} {tree : BPlusTree} {key : Int} {rids : List RID}
    (stored : objects objectId = some (.index tree)) (found : tree.search key = .ok rids) :
    Yields (Shows guests catalog objects) (indexSearch objectId key) rids := by
  apply Yields.bind (lockPage_shared objectId kRootHeaderPageId)
  apply Yields.bind (getIndex_yields stored)
  exact Yields.lift (by rw [found, ofBTree])

theorem fetchRows_yields {objectId : Nat} {file : HeapFile} (stored : objects objectId = some (.heap file))
    (outOfSync : Exception) {rows : List (RID × Bytes)} (live : ∀ row ∈ rows, row ∈ file.rows) :
    Yields (Shows guests catalog objects) (fetchRows objectId outOfSync (rows.map Prod.fst)) rows := by
  have each : ∀ row ∈ rows, Yields (Shows guests catalog objects)
      (fetchRows.fetchRow objectId outOfSync row.1) [row] := by
    intro row member
    apply Yields.bind (heapGetRow_yields stored row.1)
    rw [HeapFile.mem_rows.mp (live row member)]
    exact Yields.pure _
  have fetched := Yields.collect_view Prod.fst (fun row => [row]) each
  rwa [List.flatMap_singleton'] at fetched

end Reads

end Database

end FlintDB
