import FlintDB.Catalog.CatalogFile

set_option autoImplicit false

-- The checks come first, then the members of the catalog change, then the metadata file is replaced, then Database
-- brings the storage of the new objects online. Nothing of it is taken back.

namespace FlintDB

open Lib

/-- What fails during one call, with the text of the error where the source puts it into a message. -/
structure SystemFaults where
  openTemporary : Option String := none
  -- after how many characters
  write : Option (Nat × String) := none
  fsync : Option String := none
  rename : Option String := none
  -- what AttachHeapStorage or AttachIndexStorage of the object throws, a file that does not open among it
  attach : Nat → Option Exception := fun _ => none
  -- what the backfill of a new index, or the FlushAll behind it, throws
  populate : Option Exception := none

/-- The catalog, its directory and the objects of the database that are online. -/
structure CatalogFiles extends CatalogDirectory where
  temporary : Option (List Char) := none
  attached : List Nat := []

abbrev CreateM := Fallible CatalogFiles Exception

def throwIf : Option Exception → CreateM Unit
  | some e => throw e
  | none => return ()

-- FullWrite to the temporary file.
def writeTemporary (content : List Char) : Option (Nat × String) → CreateM Unit
  | some (done, why) => do
    modify ({ · with temporary := some (content.take done) })
    throw (.runtimeError ("Catalog: write failed: " ++ why))
  | none => modify ({ · with temporary := some content })

def persist (dirPath : String) (faults : SystemFaults) : CreateM Unit := do
  let content := (← get).catalog.content.persist
  let tmpPath := metadataFilePath dirPath ++ ".tmp"
  throwIf (faults.openTemporary.map fun why =>
    .runtimeError ("Catalog: failed to open " ++ tmpPath ++ " for writing: " ++ why))
  writeTemporary content faults.write
  throwIf (faults.fsync.map fun why => .runtimeError ("Catalog: fsync failed: " ++ why))
  throwIf (faults.rename.map fun why => .runtimeError ("Catalog: rename failed: " ++ why))
  modify ({ · with metadata := some content, temporary := none })

/-- The checks of the call, and the members as it leaves them. -/
def CatalogCall.create (catalog : Catalog) : CatalogCall → Except Exception (Nat × Catalog)
  | createTable name columns primaryKeyColumn => catalog.createTable name columns primaryKeyColumn
  | createIndex name tableName columnName => catalog.createIndex name tableName columnName

-- Catalog::CreateTable and Catalog::CreateIndex.
def createInCatalog (dirPath : String) (faults : SystemFaults) (call : CatalogCall) : CreateM Nat := do
  let files ← get
  let (objectId, catalog) ← call.create files.catalog
  set { files with catalog := catalog }
  persist dirPath faults
  return objectId

def attachStorage (faults : SystemFaults) (objectId : Nat) : CreateM Unit := do
  throwIf (faults.attach objectId)
  modify fun files => { files with attached := files.attached ++ [objectId] }

def completeCreate (faults : SystemFaults) : CatalogCall → CreateM Unit
  | .createTable name _ (some _) => do
    match (← get).catalog.primaryKeyIndex name with
    | some index => attachStorage faults index.objectId
    | none => throw .undefined
  | .createTable _ _ none => return ()
  | .createIndex _ _ _ => throwIf faults.populate

-- Database::CreateTable and Database::CreateIndex.
def createInDatabase (dirPath : String) (faults : SystemFaults) (call : CatalogCall) : CreateM Nat := do
  let objectId ← createInCatalog dirPath faults call
  attachStorage faults objectId
  completeCreate faults call
  return objectId

/-- A call on the Catalog itself, or on the Database. -/
inductive CreateTarget
  | catalog
  | database

def CreateTarget.create : CreateTarget → String → SystemFaults → CatalogCall → CreateM Nat
  | catalog => createInCatalog
  | database => createInDatabase

/-- The members of the catalog, which nothing behind the checks touches. -/
def CatalogFiles.Holds (catalog : Catalog) (files : CatalogFiles) : Prop := files.catalog = catalog

section Kept

variable {catalog : Catalog}

theorem throwIf_keeps (fault : Option Exception) : Fallible.Keeps (CatalogFiles.Holds catalog) (throwIf fault) := by
  cases fault with
  | none => exact fun files held => held
  | some e => exact fun files held => held

theorem writeTemporary_keeps (content : List Char) (fault : Option (Nat × String)) :
    Fallible.Keeps (CatalogFiles.Holds catalog) (writeTemporary content fault) := by
  cases fault with
  | none => exact fun files held => held
  | some cut => exact fun files held => held

theorem persist_keeps (dirPath : String) (faults : SystemFaults) :
    Fallible.Keeps (CatalogFiles.Holds catalog) (persist dirPath faults) := by
  refine Fallible.Meets.bind (fun files held => held) fun files => ?_
  refine Fallible.Meets.bind (throwIf_keeps _) fun _ => ?_
  refine Fallible.Meets.bind (writeTemporary_keeps _ _) fun _ => ?_
  refine Fallible.Meets.bind (throwIf_keeps _) fun _ => ?_
  exact Fallible.Meets.bind (throwIf_keeps _) fun _ files held => held

theorem attachStorage_keeps (faults : SystemFaults) (objectId : Nat) :
    Fallible.Keeps (CatalogFiles.Holds catalog) (attachStorage faults objectId) :=
  Fallible.Meets.bind (throwIf_keeps _) fun _ _ held => held

theorem completeCreate_keeps (faults : SystemFaults) (call : CatalogCall) :
    Fallible.Keeps (CatalogFiles.Holds catalog) (completeCreate faults call) := by
  cases call with
  | createTable name columns primaryKeyColumn =>
    cases primaryKeyColumn with
    | none => exact fun files held => held
    | some key =>
      refine Fallible.Meets.bind (fun files held => held) fun files => ?_
      cases files.catalog.primaryKeyIndex name with
      | none => exact fun files held => held
      | some index => exact attachStorage_keeps faults index.objectId
  | createIndex name tableName columnName => exact throwIf_keeps _

end Kept

theorem create_refused {target : CreateTarget} {dirPath : String} {faults : SystemFaults} {call : CatalogCall}
    {files : CatalogFiles} {e : Exception} (refused : call.create files.catalog = .error e) :
    (target.create dirPath faults call).exec files = (.error e, files) := by
  have inCatalog : (createInCatalog dirPath faults call).exec files = (.error e, files) := by
    rw [createInCatalog, Fallible.exec_bind_ok (Fallible.exec_get files), refused]
    rfl
  cases target with
  | catalog => exact inCatalog
  | database => exact Fallible.exec_bind_error inCatalog

theorem create_checked {target : CreateTarget} {dirPath : String} {faults : SystemFaults} {call : CatalogCall}
    {files : CatalogFiles} {objectId : Nat} {catalog : Catalog}
    (checked : call.create files.catalog = .ok (objectId, catalog)) :
    Fallible.Meets (· = files) (target.create dirPath faults call) (fun _ => CatalogFiles.Holds catalog)
      (CatalogFiles.Holds catalog) := by
  have inCatalog : Fallible.Meets (· = files) (createInCatalog dirPath faults call)
      (fun _ => CatalogFiles.Holds catalog) (CatalogFiles.Holds catalog) := by
    intro start isFiles
    rw [isFiles, createInCatalog, Fallible.exec_bind_ok (Fallible.exec_get files), checked]
    exact Fallible.Meets.bind (persist_keeps dirPath faults) (fun _ _ held => held) { files with catalog := catalog } rfl
  cases target with
  | catalog => exact inCatalog
  | database =>
    refine Fallible.Meets.bind inCatalog fun objectId => ?_
    refine Fallible.Meets.bind (attachStorage_keeps faults objectId) fun _ => ?_
    exact Fallible.Meets.bind (completeCreate_keeps faults call) fun _ files held => held

theorem nextObjectId_lt {catalog after : Catalog} {call : CatalogCall} {objectId : Nat}
    (checked : call.create catalog = .ok (objectId, after)) : catalog.nextObjectId < after.nextObjectId := by
  cases call with
  | createTable name columns primaryKeyColumn =>
    obtain ⟨-, _, _, _, ⟨-, rfl⟩ | ⟨key, _, -, rfl⟩⟩ := Catalog.createTable_ok checked
    · exact Nat.lt_succ_self _
    · exact Nat.lt_succ_of_lt (Nat.lt_succ_self _)
  | createIndex name tableName columnName =>
    obtain ⟨-, -, _, _, _, -, -, rfl⟩ := Catalog.createIndex_ok checked
    exact Nat.lt_succ_self _

/-- The members of the catalog and its file are as before, and so is what any later call that returns makes of them. -/
structure LeavesNoTrace (before after : CatalogFiles) : Prop where
  catalog : after.catalog = before.catalog
  metadata : after.metadata = before.metadata
  later : ∀ (target : CreateTarget) dirPath faults call objectId files,
    (target.create dirPath faults call).exec after = (.ok objectId, files) →
    ∃ files', (target.create dirPath faults call).exec before = (.ok objectId, files') ∧
      files'.catalog = files.catalog ∧ files'.metadata = files.metadata

/-- A CREATE that throws leaves no trace if and only if its own checks refused it. -/
theorem failed_create_leaves_no_trace_iff (target : CreateTarget) (dirPath : String) (faults : SystemFaults)
    (call : CatalogCall) (files after : CatalogFiles) (e : Exception)
    (thrown : (target.create dirPath faults call).exec files = (.error e, after)) :
    LeavesNoTrace files after ↔ ∃ refusal, call.create files.catalog = .error refusal := by
  constructor
  · intro noTrace
    cases checked : call.create files.catalog with
    | error refusal => exact ⟨refusal, rfl⟩
    | ok result =>
      have grown := nextObjectId_lt checked
      have left := (create_checked checked : Fallible.Meets (· = files) (target.create dirPath faults call) _ _) files rfl
      rw [thrown] at left
      have left : after.catalog = result.2 := left
      rw [← left, noTrace.catalog] at grown
      exact absurd grown (Nat.lt_irrefl _)
  · rintro ⟨refusal, refused⟩
    rw [create_refused refused] at thrown
    cases thrown
    exact ⟨rfl, rfl, fun _ _ _ _ _ files' returned => ⟨files', returned, rfl, rfl⟩⟩

theorem failed_create_leaves_no_trace_iff_duplicate :
    ∃ made ready files e,
      (CreateTarget.database.create "db" {} (.createTable "t" [⟨"a", .kInteger⟩, ⟨"b", .kInteger⟩] (some "a"))).exec {} =
        (.ok 0, made) ∧
      (CreateTarget.database.create "db" {} (.createIndex "i" "t" "b")).exec made = (.ok 2, ready) ∧
      ready.catalog.tables.length = 1 ∧ ready.catalog.indexes.length = 2 ∧
      (CreateTarget.database.create "db" {} (.createIndex "i" "t" "a")).exec ready = (.error e, files) ∧
      LeavesNoTrace ready files := by
  refine ⟨_, _, _, _, rfl, rfl, rfl, rfl, rfl, ?_⟩
  exact (failed_create_leaves_no_trace_iff .database "db" {} (.createIndex "i" "t" "a") _ _ _ rfl).mpr ⟨_, rfl⟩

/-- fsync fails while table t is created. The table is there all the same, and creating table u persists both. -/
theorem failed_create_is_persisted_later :
    ∃ files e, (CreateTarget.database.create "db" { fsync := some "No space left on device" }
        (.createTable "t" [⟨"a", .kInteger⟩] none)).exec {} = (.error e, files) ∧
      files.catalog.tables.map TableInfo.name = ["t"] ∧ files.metadata = none ∧
      ∃ later, (CreateTarget.database.create "db" {} (.createTable "u" [⟨"a", .kInteger⟩] none)).exec files =
          (.ok 1, later) ∧
        later.catalog.tables.map TableInfo.name = ["t", "u"] ∧ later.metadata = some later.catalog.content.persist := by
  refine ⟨_, _, rfl, rfl, rfl, _, rfl, rfl, rfl⟩

end FlintDB
