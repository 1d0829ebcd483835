import FlintDB.Catalog.FailedCreate
import FlintDB.Index.IndexFile
import FlintDB.Sql.SessionRuns

set_option autoImplicit false

-- The catalog is replaced first. The file of a new index is made after that, without log records, so the next open
-- has to take it as it is.

namespace FlintDB

open Lib Fallible Database

inductive FileOp
  -- catalog.meta.tmp, up to its fsync
  | openTemporary
  | writeTemporary
  | syncTemporary
  | renameCatalog (catalog : Catalog)
  | openObject (objectId : Nat)
  | onIndex (objectId : Nat) (op : IndexFileOp)

/-- What catalog.meta says, and the files of the objects. One that is missing is opened as an empty one. -/
structure DatabaseFiles where
  catalog : Catalog := {}
  heapFile : Nat → HeapFile := fun _ => {}
  indexFile : Nat → IndexFile := fun _ => {}

/-- HeapFile's constructor lists every page of the file. -/
def HeapFile.reopen (file : HeapFile) : HeapFile := { file with pageIds := List.range file.allocated }

namespace DatabaseFiles

def apply (files : DatabaseFiles) : FileOp → DatabaseFiles
  | .renameCatalog catalog => { files with catalog := catalog }
  | .onIndex objectId op =>
    { files with indexFile := Function.update files.indexFile objectId ((files.indexFile objectId).apply op) }
  | .openTemporary | .writeTemporary | .syncTemporary | .openObject _ => files

-- The log has no records of a new object, and everything it has of the others is in their files already.
def reopen (files : DatabaseFiles) : Database where
  catalog := files.catalog
  objects objectId :=
    if objectId ∈ files.catalog.tables.map TableInfo.heapObjectId then some (.heap (files.heapFile objectId).reopen)
    else if objectId ∈ files.catalog.indexes.map IndexInfo.objectId then
      some (.index (files.indexFile objectId).attachStorage)
    else none

end DatabaseFiles

namespace Database

-- Nobody has created a file under an id that is still to be given out.
def storedObject (db : Database) (objectId : Nat) : Option ObjectStorage :=
  if objectId < db.catalog.nextObjectId then db.objects objectId else none

/-- The files with no transaction active: a commit has flushed all it changed, an abort has put back the rest. -/
def files (db : Database) : DatabaseFiles where
  catalog := db.catalog
  heapFile objectId :=
    match db.storedObject objectId with
    | some (.heap file) => file
    | _ => {}
  indexFile objectId :=
    match db.storedObject objectId with
    | some (.index tree) => tree.file
    | _ => {}

-- The pages of the new index after the backfill, and whether that came to its end.
def backfill (db : Database) (stmt : CreateIndexStatement) (objectId : Nat) (after : Catalog) : Bool × BPlusTree :=
  let (outcome, filled) :=
    (executeCreateIndex.populate stmt objectId).exec ({ db with catalog := after }.attach objectId (.index {}))
  match filled.objects objectId with
  | some (.index tree) => (outcome.isOk, tree)
  | _ => (false, {})

end Database

def persistOps (after : Catalog) : List FileOp :=
  [.openTemporary, .writeTemporary, .syncTemporary, .renameCatalog after]

-- Persist, then the storage of the new objects.
def createOps (after : Catalog) (opened : List Nat) (indexId : Nat) (ops : List IndexFileOp) : List FileOp :=
  persistOps after ++ (opened.map .openObject ++ ops.map (.onIndex indexId))

-- The files that a call opens after Persist, and what it does to that of a new index. FlushAll writes the dirty pages
-- in the order `order` of its hash set.
def CatalogCall.objectOps (db : Database) (order : List Nat) (objectId : Nat) (after : Catalog) :
    CatalogCall → List Nat × Nat × List IndexFileOp
  | .createTable name _ primaryKeyColumn =>
    match if primaryKeyColumn.isSome then after.primaryKeyIndex name else none with
    | some index => ([objectId, index.objectId], index.objectId, IndexFile.constructorOps)
    | none => ([objectId], objectId, [])
  | .createIndex name tableName columnName =>
    let (finished, tree) := db.backfill ⟨name, tableName, columnName⟩ objectId after
    ([objectId], objectId, IndexFile.buildOps tree (if finished then order else []))

/-- The file operations of Database::CreateTable and Database::CreateIndex, the latter called by ExecuteCreateIndex. An
error on the way, the backfill's among them, ends them early. -/
def Database.fileOps (db : Database) (order : List Nat) (call : CatalogCall) : List FileOp :=
  match call.create db.catalog with
  | .error _ => []
  | .ok (objectId, after) =>
    let (opened, indexId, ops) := call.objectOps db order objectId after
    createOps after opened indexId ops

-- The heap of every table holds its rows, and those indexes on it that are `followed` their entries.
structure Serves (catalog : Catalog) (objects : Nat → Option ObjectStorage) (followed : IndexInfo → Prop)
    (contents : Contents) : Prop where
  heap : ∀ table ∈ catalog.tables, ∃ file, objects table.heapObjectId = some (.heap file) ∧ file.Sound ∧
    file.rows = (contents table.name).map table.encode
  storable : ∀ table ∈ catalog.tables, ∀ row ∈ contents table.name, table.Storable row.2
  index : ∀ table ∈ catalog.tables, ∀ index ∈ catalog.indexesOnTable table.name, followed index → ∃ tree,
    objects index.objectId = some (.index tree) ∧
      tree.Represents (table.entries index.columnName (contents table.name))

theorem serves_iff_lockstep {catalog : Catalog} {objects : Nat → Option ObjectStorage} {contents : Contents} :
    Serves catalog objects (fun _ => True) contents ↔ Lockstep catalog objects contents :=
  ⟨fun serves => ⟨serves.heap, serves.storable, fun table isTable index onTable =>
      serves.index table isTable index onTable trivial⟩,
    fun lockstep => ⟨lockstep.heap, lockstep.storable, fun table isTable index onTable _ =>
      lockstep.index table isTable index onTable⟩⟩

section Backfill

variable {start : Database} {objectId : Nat}

theorem indexInsert_idle (idle : start.currentTransaction = none) (tree : BPlusTree) (key : Int) (rid : RID) :
    (indexInsert objectId key rid).exec (start.attach objectId (.index tree)) =
      (ofBTree ((BPlusTree.insert key rid).exec tree).1,
        start.attach objectId (.index ((BPlusTree.insert key rid).exec tree).2)) := by
  have found : (getIndex objectId).exec (start.attach objectId (.index tree)) =
      (.ok tree, start.attach objectId (.index tree)) := by
    rw [getIndex, exec_bind_ok (exec_get _), attach_objects, Function.update_self]
    rfl
  have stillIdle : (start.attach objectId (.index tree)).currentTransaction = none := idle
  rw [indexInsert, modifyIndex, exec_bind_ok (lockPage_none stillIdle objectId kRootHeaderPageId .kExclusive),
    exec_bind_ok found]
  rcases (BPlusTree.insert key rid).exec tree with ⟨outcome, after⟩
  simp only
  rw [exec_bind_ok (exec_modify _ _), exec_liftM]
  simp [attach]

theorem backfillRows_exec (idle : start.currentTransaction = none) {table : TableInfo} {columnName : String}
    {column : ColumnDef} {columnIdx : Nat} (isColumn : table.findColumn columnName = some column)
    (indexed : columnIndex table columnName = .ok columnIdx) {rows : List (RID × List LiteralValue)}
    (storable : ∀ row ∈ rows, table.Storable row.2) (tree : BPlusTree) :
    ∃ outcome : Except Exception PUnit,
      ((rows.map table.encode).forM (executeCreateIndex.backfill table columnIdx objectId)).exec
          (start.attach objectId (.index tree)) =
        (outcome, start.attach objectId (.index ((BPlusTree.insertAll (table.entries columnName rows)).exec tree).2)) ∧
      outcome.isOk = ((BPlusTree.insertAll (table.entries columnName rows)).exec tree).1.isOk := by
  induction rows generalizing tree with
  | nil => exact ⟨.ok ⟨⟩, rfl, rfl⟩
  | cons row rows ih =>
    rw [List.forall_mem_cons] at storable
    obtain ⟨here, later⟩ := storable
    obtain ⟨idx, value, indexed', at_idx, valueAt_eq, -⟩ := here.row.valueAt isColumn
    cases indexed.symm.trans indexed'
    have keyed : table.keyAt columnName row.2 = some value.key := by rw [TableInfo.keyAt, valueAt_eq, Option.map_some]
    have entries_eq : table.entries columnName (row :: rows) = (value.key, row.1) :: table.entries columnName rows := by
      simp [TableInfo.entries, keyed]
    have body : ∀ db, (executeCreateIndex.backfill table columnIdx objectId (table.encode row)).exec db =
        (indexInsert objectId value.key row.1).exec db := by
      intro db
      rw [executeCreateIndex.backfill, TableInfo.encode, here.decode, exec_bind_ok (exec_liftM _ db), at_idx, orUndefined,
        exec_bind_ok (exec_liftM _ db)]
    have inserts : BPlusTree.insertAll (table.entries columnName (row :: rows)) =
        (BPlusTree.insert value.key row.1 >>= fun _ => BPlusTree.insertAll (table.entries columnName rows)) := by
      rw [entries_eq]
      rfl
    show ∃ outcome, (executeCreateIndex.backfill table columnIdx objectId (table.encode row) >>= fun _ =>
      (rows.map table.encode).forM (executeCreateIndex.backfill table columnIdx objectId)).exec _ = _ ∧ _
    rw [inserts]
    have first := (body (start.attach objectId (.index tree))).trans (indexInsert_idle idle tree value.key row.1)
    rcases inserted : (BPlusTree.insert value.key row.1).exec tree with ⟨outcome, next⟩
    rw [inserted] at first
    cases outcome with
    | ok _ =>
      rw [exec_bind_ok first, exec_bind_ok inserted]
      exact ih later next
    | error e =>
      have failed : ∃ e', ofBTree (.error e : Except BTreeError Unit) = .error e' := by cases e <;> exact ⟨_, rfl⟩
      obtain ⟨e', failed⟩ := failed
      rw [failed] at first
      rw [exec_bind_error first, exec_bind_error inserted]
      exact ⟨_, rfl, rfl⟩

theorem backfill_eq {db : Database} {followed : IndexInfo → Prop} {contents : Contents}
    (idle : db.currentTransaction = none) (serves : Serves db.catalog db.objects followed contents)
    {name tableName columnName : String} {after : Catalog}
    (created : db.catalog.createIndex name tableName columnName = .ok (objectId, after)) {table : TableInfo}
    (found : db.catalog.findTable tableName = some table) :
    db.backfill ⟨name, tableName, columnName⟩ objectId after =
      IndexFile.filled (table.entries columnName (contents tableName)) := by
  obtain ⟨rfl, -, table', column, integer, found', isColumn, rfl⟩ := Catalog.createIndex_ok created
  cases found.symm.trans found'
  obtain ⟨isTable, rfl⟩ := Catalog.findTable_eq_some.mp found
  obtain ⟨columnIdx, indexed, -, -⟩ := columnIndex_of_findColumn isColumn
  obtain ⟨file, present, -, rows_eq⟩ := serves.heap table isTable
  let fresh : Database := { db with catalog := db.catalog.pushIndex name table.name columnName false integer }
  have presentThere : (fresh.attach db.catalog.nextObjectId (.index {})).objects table.heapObjectId = some (.heap file) := by
    have older := Catalog.heapObjectId_lt isTable
    rw [attach_objects, Function.update_of_ne (by omega)]
    exact present
  let stmt : CreateIndexStatement := ⟨name, table.name, columnName⟩
  have freshIdle : fresh.currentTransaction = none := idle
  have attachedIdle : (fresh.attach db.catalog.nextObjectId (.index {})).currentTransaction = none := idle
  have foundThere : (fresh.attach db.catalog.nextObjectId (.index {})).catalog.findTable stmt.tableName = some table := found
  have populated := populate_exec attachedIdle foundThere indexed presentThere db.catalog.nextObjectId
  rw [rows_eq] at populated
  obtain ⟨outcome, looped, sameEnd⟩ := backfillRows_exec freshIdle isColumn indexed (serves.storable table isTable) {}
  rw [Database.backfill, populated.trans looped]
  simp only [attach_objects, Function.update_self, sameEnd]
  rfl

end Backfill

namespace HeapFile

variable {file : HeapFile}

theorem reopen_sound (sound : file.Sound) : file.reopen.Sound :=
  ⟨List.nodup_range, fun _ listed => List.mem_range.mp listed, sound.zero⟩

theorem reopen_rows (sound : file.Sound) (listed : ∀ pageId, pageId ∉ file.pageIds → file.rowsOn pageId = []) :
    file.reopen.rows.Perm file.rows := by
  have parts := (List.range file.allocated).filter_append_perm (· ∈ file.pageIds)
  have same : ((List.range file.allocated).filter (· ∈ file.pageIds)).Perm file.pageIds := by
    refine (List.perm_ext_iff_of_nodup (List.nodup_range.filter _) sound.nodup).mpr fun pageId => ?_
    have within := sound.listed pageId
    simp only [List.mem_filter, List.mem_range, decide_eq_true_eq]
    exact ⟨And.right, fun isListed => ⟨within isListed, isListed⟩⟩
  have others : ((List.range file.allocated).filter fun pageId => !decide (pageId ∈ file.pageIds)).flatMap file.rowsOn =
      [] := by
    refine List.flatMap_eq_nil_iff.mpr fun pageId member => listed pageId ?_
    simpa using (List.mem_filter.mp member).2
  show ((List.range file.allocated).flatMap file.rowsOn).Perm (file.pageIds.flatMap file.rowsOn)
  refine (parts.symm.flatMap_right _).trans ?_
  rw [List.flatMap_append, others, List.append_nil]
  exact same.flatMap_right _

end HeapFile

theorem exists_perm_of_map {α β : Type} {f : α → β} {list : List α} {images : List β} (perm : images.Perm (list.map f)) :
    ∃ list' : List α, list'.Perm list ∧ images = list'.map f := by
  generalize mapped : list.map f = other at perm
  induction perm generalizing list with
  | nil => exact ⟨list, .refl _, mapped.symm⟩
  | cons image _ ih =>
    obtain ⟨first, rest, rfl, rfl, tail⟩ := List.map_eq_cons_iff.mp mapped
    obtain ⟨list', perm', rfl⟩ := ih tail
    exact ⟨first :: list', perm'.cons first, rfl⟩
  | swap image image' images =>
    obtain ⟨first, others, rfl, rfl, tail⟩ := List.map_eq_cons_iff.mp mapped
    obtain ⟨second, rest, rfl, rfl, rfl⟩ := List.map_eq_cons_iff.mp tail
    exact ⟨second :: first :: rest, .swap first second rest, rfl⟩
  | trans _ _ ih₁ ih₂ =>
    obtain ⟨middle, perm₂, rfl⟩ := ih₂ mapped
    obtain ⟨list', perm₁, same⟩ := ih₁ rfl
    exact ⟨list', perm₁.trans perm₂, same⟩

namespace Database

variable {db : Database} {followed : IndexInfo → Prop} {contents : Contents}

/-- Nobody is at work, and the tables hold these rows, all of them on pages that Scan looks at. -/
structure AtRest (db : Database) (followed : IndexInfo → Prop) (contents : Contents) : Prop where
  inactive : db.activeTxns = ∅
  idle : db.currentTransaction = none
  serves : Serves db.catalog db.objects followed contents
  listed : ∀ table ∈ db.catalog.tables, ∀ file, db.objects table.heapObjectId = some (.heap file) →
    ∀ pageId, pageId ∉ file.pageIds → file.rowsOn pageId = []

theorem storedObject_of_lt {objectId : Nat} (given : objectId < db.catalog.nextObjectId) :
    db.storedObject objectId = db.objects objectId := if_pos given

theorem heapFile_files {objectId : Nat} (given : objectId < db.catalog.nextObjectId) {file : HeapFile}
    (present : db.objects objectId = some (.heap file)) : db.files.heapFile objectId = file := by
  simp only [files, storedObject_of_lt given, present]

theorem indexFile_files {objectId : Nat} (given : objectId < db.catalog.nextObjectId) {tree : BPlusTree}
    (present : db.objects objectId = some (.index tree)) : db.files.indexFile objectId = tree.file := by
  simp only [files, storedObject_of_lt given, present]

theorem files_unused {objectId : Nat} (unused : db.catalog.nextObjectId ≤ objectId) :
    db.files.heapFile objectId = {} ∧ db.files.indexFile objectId = {} := by
  have none : db.storedObject objectId = none := if_neg (by omega)
  simp only [files, none, and_self]

theorem AtRest.shown (rest : db.AtRest followed contents) : ∃ shown : Contents, (∀ name, (shown name).Perm (contents name)) ∧
    ∀ table ∈ db.catalog.tables, (db.files.heapFile table.heapObjectId).reopen.Sound ∧
      (db.files.heapFile table.heapObjectId).reopen.rows = (shown table.name).map table.encode := by
  have each : ∀ name, ∃ rows : List (RID × List LiteralValue), rows.Perm (contents name) ∧
      ∀ table ∈ db.catalog.tables, table.name = name →
        (db.files.heapFile table.heapObjectId).reopen.rows = rows.map table.encode := by
    intro name
    cases found : db.catalog.findTable name with
    | none =>
      refine ⟨contents name, .refl _, fun table isTable named => ?_⟩
      rw [Catalog.findTable_eq_some.mpr ⟨isTable, named⟩] at found
      cases found
    | some table =>
      obtain ⟨isTable, rfl⟩ := Catalog.findTable_eq_some.mp found
      obtain ⟨file, present, sound, rows_eq⟩ := rest.serves.heap table isTable
      have same := HeapFile.reopen_rows sound (rest.listed table isTable file present)
      rw [rows_eq] at same
      obtain ⟨rows, perm, reopened⟩ := exists_perm_of_map same
      refine ⟨rows, perm, fun other isOther named => ?_⟩
      cases found.symm.trans (Catalog.findTable_eq_some.mpr ⟨isOther, named⟩)
      rw [heapFile_files (Catalog.heapObjectId_lt isTable) present, reopened]
  choose shown perm rows_eq using each
  refine ⟨shown, perm, fun table isTable => ⟨?_, rows_eq _ table isTable rfl⟩⟩
  obtain ⟨file, present, sound, -⟩ := rest.serves.heap table isTable
  rw [heapFile_files (Catalog.heapObjectId_lt isTable) present]
  exact HeapFile.reopen_sound sound

end Database

namespace DatabaseFiles

variable {files : DatabaseFiles}

theorem reopen_heap {table : TableInfo} (isTable : table ∈ files.catalog.tables) :
    files.reopen.objects table.heapObjectId = some (.heap (files.heapFile table.heapObjectId).reopen) :=
  if_pos (List.mem_map_of_mem isTable)

theorem reopen_index {index : IndexInfo} (isIndex : index ∈ files.catalog.indexes) :
    files.reopen.objects index.objectId = some (.index (files.indexFile index.objectId).attachStorage) := by
  have isId : index.objectId ∈ files.catalog.indexes.map IndexInfo.objectId := List.mem_map_of_mem isIndex
  have noTable : index.objectId ∉ files.catalog.tables.map TableInfo.heapObjectId := fun isHeap =>
    (List.nodup_append.mp files.catalog.ids_nodup).2.2 _ isHeap _ isId rfl
  rw [reopen]
  simp only
  rw [if_neg noTable, if_pos isId]

theorem reopen_serves {followed : IndexInfo → Prop} {shown : Contents}
    (heap : ∀ table ∈ files.catalog.tables, (files.heapFile table.heapObjectId).reopen.Sound ∧
      (files.heapFile table.heapObjectId).reopen.rows = (shown table.name).map table.encode)
    (storable : ∀ table ∈ files.catalog.tables, ∀ row ∈ shown table.name, table.Storable row.2)
    (indexes : ∀ table ∈ files.catalog.tables, ∀ index ∈ files.catalog.indexesOnTable table.name, followed index →
      (files.indexFile index.objectId).attachStorage.Represents (table.entries index.columnName (shown table.name))) :
    Serves files.catalog files.reopen.objects followed shown where
  heap table isTable := ⟨_, reopen_heap isTable, heap table isTable⟩
  storable := storable
  index table isTable index onTable isFollowed :=
    ⟨_, reopen_index (Catalog.mem_indexesOnTable.mp onTable).1, indexes table isTable index onTable isFollowed⟩

end DatabaseFiles

def DatabaseFiles.renamed (files : DatabaseFiles) (after : Catalog) (indexId : Nat) (file : IndexFile) : DatabaseFiles :=
  { files with catalog := after, indexFile := Function.update files.indexFile indexId file }

theorem DatabaseFiles.renamed_new (files : DatabaseFiles) (after : Catalog) (indexId : Nat) (file : IndexFile) :
    (files.renamed after indexId file).indexFile indexId = file := Function.update_self ..

theorem DatabaseFiles.renamed_older (files : DatabaseFiles) {after : Catalog} {indexId other : Nat} {file : IndexFile}
    (older : other ≠ indexId) : (files.renamed after indexId file).indexFile other = files.indexFile other :=
  Function.update_of_ne older ..

namespace FileOp

variable {after : Catalog} {opened : List Nat} {indexId : Nat} {ops : List IndexFileOp} {performed : List FileOp}

theorem foldl_openObject (opened : List Nat) (files : DatabaseFiles) :
    (opened.map FileOp.openObject).foldl DatabaseFiles.apply files = files := by
  induction opened with
  | nil => rfl
  | cons _ opened ih => exact ih

theorem foldl_onIndex (indexId : Nat) (ops : List IndexFileOp) (files : DatabaseFiles) :
    (ops.map (FileOp.onIndex indexId)).foldl DatabaseFiles.apply files =
      { files with
        indexFile := Function.update files.indexFile indexId (ops.foldl IndexFile.apply (files.indexFile indexId)) } := by
  induction ops generalizing files with
  | nil => simp
  | cons op ops ih =>
    rw [List.map_cons, List.foldl_cons, ih]
    simp [DatabaseFiles.apply]

theorem performed_cases (isPrefix : performed <+: createOps after opened indexId ops) :
    (∀ files, performed.foldl DatabaseFiles.apply files = files) ∧ (∀ catalog, .renameCatalog catalog ∉ performed) ∧
        (∀ op, .onIndex indexId op ∉ performed) ∨
      ∃ openedSoFar done, performed = createOps after openedSoFar indexId done ∧ done <+: ops ∧
        (openedSoFar = opened ∨ done = []) := by
  rcases IndexFile.part_of_append isPrefix with persisting | ⟨rest, later, rfl⟩
  · simp only [persistOps, List.prefix_cons_iff, List.prefix_nil] at persisting
    rcases persisting with rfl | ⟨_, rfl, rfl | ⟨_, rfl, rfl | ⟨_, rfl, rfl | ⟨_, rfl, rfl⟩⟩⟩⟩
    · exact .inl ⟨fun _ => rfl, by simp, by simp⟩
    · exact .inl ⟨fun _ => rfl, by simp, by simp⟩
    · exact .inl ⟨fun _ => rfl, by simp, by simp⟩
    · exact .inl ⟨fun _ => rfl, by simp, by simp⟩
    · exact .inr ⟨[], [], by simp [createOps, persistOps], List.nil_prefix, .inr rfl⟩
  · rcases IndexFile.part_of_append later with opening | ⟨written, writing, rfl⟩
    · obtain ⟨openedSoFar, -, rfl⟩ := List.prefix_map_iff.mp opening
      exact .inr ⟨openedSoFar, [], by simp [createOps], List.nil_prefix, .inr rfl⟩
    · obtain ⟨done, isDone, rfl⟩ := List.prefix_map_iff.mp writing
      exact .inr ⟨opened, done, rfl, isDone, .inl rfl⟩

theorem foldl_performed (openedSoFar : List Nat) (done : List IndexFileOp) (files : DatabaseFiles) :
    (createOps after openedSoFar indexId done).foldl DatabaseFiles.apply files =
      files.renamed after indexId (done.foldl IndexFile.apply (files.indexFile indexId)) := by
  rw [createOps, List.foldl_append, List.foldl_append, foldl_openObject, foldl_onIndex]
  rfl

theorem onIndex_mem (openedSoFar : List Nat) (done : List IndexFileOp) (op : IndexFileOp) :
    .onIndex indexId op ∈ createOps after openedSoFar indexId done ↔ op ∈ done := by
  simp [createOps, persistOps]

def indexOp : FileOp → Option IndexFileOp
  | .onIndex _ op => some op
  | _ => none

theorem createOps_indexOps (after : Catalog) (opened : List Nat) (indexId : Nat) (ops : List IndexFileOp) :
    (createOps after opened indexId ops).filterMap indexOp = ops := by
  have none_opened : (opened.map FileOp.openObject).filterMap indexOp = [] := by
    simp [List.filterMap_map, indexOp]
  have all_index : (ops.map (FileOp.onIndex indexId)).filterMap indexOp = ops := by
    rw [List.filterMap_map]
    exact List.filterMap_some
  rw [createOps, List.filterMap_append, List.filterMap_append, none_opened, all_index]
  rfl

end FileOp

-- The tables hold these rows in some order, the indexes that are `followed` are in step with them, and an equality
-- query through one of these finds what a sequential scan would.
structure Database.Usable (db : Database) (followed : IndexInfo → Prop) (contents : Contents) : Prop where
  serves : ∃ shown : Contents, (∀ name, (shown name).Perm (contents name)) ∧
    Serves db.catalog db.objects followed shown
  queries : ∀ table ∈ db.catalog.tables, ∀ index ∈ db.catalog.indexesOnTable table.name, followed index → ∃ tree,
    db.objects index.objectId = some (.index tree) ∧ ∀ key, ∃ rids, tree.search key = .ok rids ∧
      rids.Perm (((contents table.name).filter fun row => table.keyAt index.columnName row.2 = some key).map Prod.fst)

/-- What the tables hold once the call has returned. -/
def CatalogCall.contents (contents : Contents) : CatalogCall → Contents
  | .createTable name _ _ => Function.update contents name []
  | .createIndex _ _ _ => contents

/-- The next open finds that the call has not happened, or that all of it has: a new index is in step, whatever the older
ones are. -/
def Survives (db : Database) (followed : IndexInfo → Prop) (contents : Contents) (call : CatalogCall) (after : Catalog)
    (performed : List FileOp) : Prop :=
  let reopened := (performed.foldl DatabaseFiles.apply db.files).reopen
  (reopened.catalog = db.catalog ∧ reopened.Usable followed contents) ∨
    (reopened.catalog = after ∧
      reopened.Usable (fun index => index ∈ db.catalog.indexes → followed index) (call.contents contents))

-- The file of an index has got its first page, and that is all zero.
def HeaderUnwritten (objectId : Nat) (performed : List FileOp) : Prop :=
  .onIndex objectId .extend ∈ performed ∧ ∀ rootPageId, .onIndex objectId (.writeHeader rootPageId) ∉ performed

namespace TableInfo

variable {table : TableInfo} {columnName : String}

theorem filter_entries (table : TableInfo) (columnName : String) (rows : List (RID × List LiteralValue)) (key : Int) :
    ((table.entries columnName rows).filter fun entry => entry.1 = key).map Prod.snd =
      (rows.filter fun row => table.keyAt columnName row.2 = some key).map Prod.fst := by
  induction rows with
  | nil => rfl
  | cons row rows ih =>
    cases keyed : table.keyAt columnName row.2 with
    | none => simpa [entries, keyed] using ih
    | some other =>
      by_cases same : other = key
      · simpa [entries, keyed, same] using ih
      · simpa [entries, keyed, same] using ih

theorem count_entries (table : TableInfo) (columnName : String) (rows : List (RID × List LiteralValue)) (key : Int) :
    ((table.entries columnName rows).map Prod.fst).count key =
      (rows.filter fun row => table.keyAt columnName row.2 = some key).length := by
  have sameLength := congrArg List.length (filter_entries table columnName rows key)
  rw [List.length_map, List.length_map] at sameLength
  rw [← sameLength, List.count_eq_length_filter, List.filter_map, List.length_map]
  rfl

theorem entries_ne_nil {column : ColumnDef} (isColumn : table.findColumn columnName = some column)
    {rows : List (RID × List LiteralValue)} (storable : ∀ row ∈ rows, table.Storable row.2) (some_row : rows ≠ []) :
    table.entries columnName rows ≠ [] := by
  obtain ⟨row, isRow⟩ := List.exists_mem_of_ne_nil _ some_row
  obtain ⟨_, value, -, -, valueAt_eq, -⟩ := (storable row isRow).row.valueAt isColumn
  have keyed : table.keyAt columnName row.2 = some value.key := by rw [keyAt, valueAt_eq, Option.map_some]
  have isEntry : (value.key, row.1) ∈ table.entries columnName rows :=
    List.mem_filterMap.mpr ⟨row, isRow, by rw [keyed, Option.map_some]⟩
  exact List.ne_nil_of_mem isEntry

end TableInfo

theorem Serves.usable {db : Database} {followed : IndexInfo → Prop} {shown contents : Contents}
    (serves : Serves db.catalog db.objects followed shown) (perm : ∀ name, (shown name).Perm (contents name)) :
    db.Usable followed contents where
  serves := ⟨shown, perm, serves⟩
  queries table isTable index onTable isFollowed := by
    obtain ⟨tree, present, represents⟩ := serves.index table isTable index onTable isFollowed
    refine ⟨tree, present, fun key => ?_⟩
    obtain ⟨rids, found, same⟩ := represents.search key
    rw [TableInfo.filter_entries] at same
    exact ⟨rids, found, same.trans (((perm table.name).filter _).map _)⟩

theorem headerUnwritten_iff {after : Catalog} {opened : List Nat} {indexId : Nat} {done : List IndexFileOp} :
    HeaderUnwritten indexId (createOps after opened indexId done) ↔ IndexFile.ZeroHeader done := by
  simp only [HeaderUnwritten, FileOp.onIndex_mem, IndexFile.ZeroHeader]

theorem survives_renamed {db : Database} {followed : IndexInfo → Prop} {contents : Contents} {call : CatalogCall}
    {objectId : Nat} {after : Catalog} (checked : call.create db.catalog = .ok (objectId, after)) {indexId : Nat}
    (unused : db.catalog.nextObjectId ≤ indexId) (opened : List Nat) (done : List IndexFileOp) :
    Survives db followed contents call after (createOps after opened indexId done) ↔
      (db.files.renamed after indexId (IndexFile.built done)).reopen.Usable
        (fun index => index ∈ db.catalog.indexes → followed index) (call.contents contents) := by
  have grown : after ≠ db.catalog := by
    intro same
    have less := nextObjectId_lt checked
    rw [same] at less
    exact Nat.lt_irrefl _ less
  rw [Survives, FileOp.foldl_performed, (files_unused unused).2]
  constructor
  · rintro (⟨same, -⟩ | ⟨-, usable⟩)
    · exact absurd same grown
    · exact usable
  · exact fun usable => .inr ⟨rfl, usable⟩

namespace Database.AtRest

variable {db : Database} {followed : IndexInfo → Prop} {contents : Contents} (rest : db.AtRest followed contents)
include rest

theorem stored_index {shown : Contents} (perm : ∀ name, (shown name).Perm (contents name)) {table : TableInfo}
    (isTable : table ∈ db.catalog.tables) {index : IndexInfo} (onTable : index ∈ db.catalog.indexesOnTable table.name)
    (isFollowed : followed index) : (db.files.indexFile index.objectId).attachStorage.Represents
      (table.entries index.columnName (shown table.name)) := by
  obtain ⟨tree, present, represents⟩ := rest.serves.index table isTable index onTable isFollowed
  rw [indexFile_files (Catalog.objectId_lt (Catalog.mem_indexesOnTable.mp onTable).1) present]
  exact (IndexFile.Stores.represents (IndexFile.stores_file tree) represents).perm
    (TableInfo.entries_perm (perm table.name).symm)

theorem shown_storable {shown : Contents} (perm : ∀ name, (shown name).Perm (contents name)) {table : TableInfo}
    (isTable : table ∈ db.catalog.tables) : ∀ row ∈ shown table.name, table.Storable row.2 := fun row isRow =>
  rest.serves.storable table isTable row ((perm table.name).mem_iff.mp isRow)

theorem unchanged_usable : db.files.reopen.Usable followed contents := by
  obtain ⟨shown, perm, heap⟩ := rest.shown
  have serves : Serves db.files.catalog db.files.reopen.objects followed shown :=
    DatabaseFiles.reopen_serves heap (fun table isTable => rest.shown_storable perm isTable)
      fun table isTable index onTable isFollowed => rest.stored_index perm isTable onTable isFollowed
  exact serves.usable perm

section CreateIndex

variable {name tableName columnName : String} {objectId : Nat} {after : Catalog} {table : TableInfo}
  (created : db.catalog.createIndex name tableName columnName = .ok (objectId, after))
  (found : db.catalog.findTable tableName = some table)
include created found

theorem createIndex_usable {file : IndexFile}
    (represents : file.attachStorage.Represents (table.entries columnName (contents tableName))) :
    (db.files.renamed after objectId file).reopen.Usable (fun index => index ∈ db.catalog.indexes → followed index)
      contents := by
  obtain ⟨rfl, -, table', column, integer, found', isColumn, rfl⟩ := Catalog.createIndex_ok created
  cases found.symm.trans found'
  obtain ⟨isTable, rfl⟩ := Catalog.findTable_eq_some.mp found
  obtain ⟨shown, perm, heap⟩ := rest.shown
  let files := db.files.renamed (db.catalog.pushIndex name table.name columnName false integer) db.catalog.nextObjectId file
  let stepping : IndexInfo → Prop := fun index => index ∈ db.catalog.indexes → followed index
  have indexes : ∀ other ∈ files.catalog.tables, ∀ index ∈ files.catalog.indexesOnTable other.name, stepping index →
      (files.indexFile index.objectId).attachStorage.Represents (other.entries index.columnName (shown other.name)) := by
    intro other isOther index onTable isFollowed
    obtain ⟨isIndex, named⟩ := Catalog.mem_indexesOnTable.mp onTable
    rcases List.mem_append.mp isIndex with older | newest
    · rw [db.files.renamed_older (Nat.ne_of_lt (Catalog.objectId_lt older))]
      exact rest.stored_index perm isOther (Catalog.mem_indexesOnTable.mpr ⟨older, named⟩) (isFollowed older)
    · obtain rfl := List.mem_singleton.mp newest
      cases found.symm.trans (Catalog.findTable_eq_some.mpr ⟨isOther, named.symm⟩)
      rw [db.files.renamed_new]
      exact represents.perm (TableInfo.entries_perm (perm table.name).symm)
  have serves : Serves files.catalog files.reopen.objects stepping shown :=
    DatabaseFiles.reopen_serves heap (fun table isTable => rest.shown_storable perm isTable) indexes
  exact serves.usable perm

omit rest in
theorem createIndex_findsAll {file : IndexFile}
    (usable : (db.files.renamed after objectId file).reopen.Usable
      (fun index => index ∈ db.catalog.indexes → followed index) contents) :
    IndexFile.FindsAll file.attachStorage (table.entries columnName (contents tableName)) := by
  obtain ⟨rfl, -, table', column, integer, found', isColumn, rfl⟩ := Catalog.createIndex_ok created
  cases found.symm.trans found'
  obtain ⟨isTable, rfl⟩ := Catalog.findTable_eq_some.mp found
  let files := db.files.renamed (db.catalog.pushIndex name table.name columnName false integer) db.catalog.nextObjectId file
  let index := IndexInfo.mk name table.name columnName db.catalog.nextObjectId false
  have isIndex : index ∈ files.catalog.indexes := List.mem_append_right _ (List.mem_singleton_self _)
  have isNew : index ∉ db.catalog.indexes := fun older => Nat.lt_irrefl _ (Catalog.objectId_lt older)
  obtain ⟨tree, present, search⟩ := usable.queries table isTable index (Catalog.mem_indexesOnTable.mpr ⟨isIndex, rfl⟩)
    (absurd · isNew)
  have reopened : files.reopen.objects index.objectId = _ := DatabaseFiles.reopen_index isIndex
  rw [db.files.renamed_new] at reopened
  cases present.symm.trans reopened
  intro key
  obtain ⟨rids, found, same⟩ := search key
  exact ⟨rids, found, by rwa [TableInfo.filter_entries]⟩

theorem createIndex_survives_iff {order : List Nat}
    (all : order.Perm (IndexFile.filled (table.entries columnName (contents tableName))).2.dirtyPages)
    (room : (IndexFile.filled (table.entries columnName (contents tableName))).2.allocated < invalidPageId)
    {performed : List FileOp} (isPrefix : performed <+: createOps after [objectId] objectId
      (IndexFile.fillOps (table.entries columnName (contents tableName)) order)) :
    Survives db followed contents (.createIndex name tableName columnName) after performed ↔
      (∀ catalog, .renameCatalog catalog ∉ performed) ∨
      (contents tableName = [] ∧ ¬ HeaderUnwritten objectId performed) ∨
      (performed = createOps after [objectId] objectId
          (IndexFile.fillOps (table.entries columnName (contents tableName)) order) ∧
        ∀ key, ((contents tableName).filter fun row => table.keyAt columnName row.2 = some key).length ≤ kLeafMaxKeys) := by
  obtain ⟨isTable, named⟩ := Catalog.findTable_eq_some.mp found
  obtain ⟨rfl, -, table', column, -, found', isColumn, -⟩ := Catalog.createIndex_ok created
  cases found.symm.trans found'
  have noRows : contents tableName = [] ↔ table.entries columnName (contents tableName) = [] := by
    constructor
    · intro empty
      rw [empty]
      rfl
    · intro noEntries
      by_contra some_row
      exact TableInfo.entries_ne_nil isColumn (named ▸ rest.serves.storable table isTable) some_row noEntries
  have counts := table.count_entries columnName (contents tableName)
  rcases FileOp.performed_cases isPrefix with ⟨unchanged, notRenamed, -⟩ | ⟨openedSoFar, done, rfl, isDone, isOpened⟩
  · refine iff_of_true (.inl ?_) (.inl notRenamed)
    rw [unchanged]
    exact ⟨rfl, rest.unchanged_usable⟩
  · have renamed : ¬ ∀ catalog, .renameCatalog catalog ∉ createOps after openedSoFar db.catalog.nextObjectId done :=
      fun none => none after (by simp [createOps, persistOps])
    have checked : CatalogCall.create db.catalog (.createIndex name tableName columnName) = _ := created
    rw [survives_renamed checked (Nat.le_refl _), or_iff_right renamed, headerUnwritten_iff, noRows]
    simp only [← counts]
    constructor
    · intro usable
      rcases IndexFile.findsAll_performed room all isDone (createIndex_findsAll created found usable) with
        nothing | ⟨rfl, few⟩
      · exact .inl nothing
      · rcases isOpened with rfl | nothingDone
        · exact .inr ⟨rfl, few⟩
        · exact absurd nothingDone (by simp [IndexFile.fillOps, IndexFile.buildOps, IndexFile.constructorOps])
    · intro safe
      refine rest.createIndex_usable created found (IndexFile.represents_performed room all isDone (safe.imp_right ?_))
      rintro ⟨whole, few⟩
      refine ⟨?_, few⟩
      have sameOps := congrArg (List.filterMap FileOp.indexOp) whole
      rwa [FileOp.createOps_indexOps, FileOp.createOps_indexOps] at sameOps

end CreateIndex

theorem createTable_usable {after : Catalog} {newTable : TableInfo}
    (tables_eq : after.tables = db.catalog.tables ++ [newTable])
    (fresh : newTable.name ∉ db.catalog.tables.map TableInfo.name)
    (heapId : newTable.heapObjectId = db.catalog.nextObjectId) {keys : List IndexInfo}
    (indexes_eq : after.indexes = db.catalog.indexes ++ keys) {indexId : Nat} (unused : db.catalog.nextObjectId ≤ indexId)
    {file : IndexFile} (isKey : ∀ index ∈ keys, index.objectId = indexId ∧ index.tableName = newTable.name ∧
      file.attachStorage.Represents []) :
    (db.files.renamed after indexId file).reopen.Usable (fun index => index ∈ db.catalog.indexes → followed index)
      (Function.update contents newTable.name []) := by
  obtain ⟨shown, perm, heap⟩ := rest.shown
  let files := db.files.renamed after indexId file
  have otherName : ∀ table ∈ db.catalog.tables, table.name ≠ newTable.name := fun table isTable same =>
    fresh (same ▸ List.mem_map_of_mem isTable)
  have tables : ∀ table ∈ files.catalog.tables, table ∈ db.catalog.tables ∨ table = newTable := fun table isTable => by
    have isTable : table ∈ after.tables := isTable
    rwa [tables_eq, List.mem_append, List.mem_singleton] at isTable
  have heaps : ∀ table ∈ files.catalog.tables, (files.heapFile table.heapObjectId).reopen.Sound ∧
      (files.heapFile table.heapObjectId).reopen.rows =
        (Function.update shown newTable.name [] table.name).map table.encode := by
    intro table isTable
    rcases tables table isTable with older | rfl
    · rw [Function.update_of_ne (otherName table older)]
      exact heap table older
    · have empty : files.heapFile table.heapObjectId = {} := (files_unused heapId.ge).1
      rw [empty, Function.update_self]
      exact ⟨HeapFile.reopen_sound HeapFile.sound_empty, rfl⟩
  have storable : ∀ table ∈ files.catalog.tables, ∀ row ∈ Function.update shown newTable.name [] table.name,
      table.Storable row.2 := by
    intro table isTable
    rcases tables table isTable with older | rfl
    · rw [Function.update_of_ne (otherName table older)]
      exact rest.shown_storable perm older
    · rw [Function.update_self]
      simp
  let stepping : IndexInfo → Prop := fun index => index ∈ db.catalog.indexes → followed index
  have indexes : ∀ table ∈ files.catalog.tables, ∀ index ∈ files.catalog.indexesOnTable table.name, stepping index →
      (files.indexFile index.objectId).attachStorage.Represents
        (table.entries index.columnName (Function.update shown newTable.name [] table.name)) := by
    intro table isTable index onTable isFollowed
    obtain ⟨isIndex, named⟩ := Catalog.mem_indexesOnTable.mp onTable
    have isIndex : index ∈ after.indexes := isIndex
    rw [indexes_eq, List.mem_append] at isIndex
    rcases isIndex with older | newer
    · have given := Catalog.objectId_lt older
      rw [db.files.renamed_older (by omega)]
      rcases tables table isTable with olderTable | rfl
      · rw [Function.update_of_ne (otherName table olderTable)]
        exact rest.stored_index perm olderTable (Catalog.mem_indexesOnTable.mpr ⟨older, named⟩) (isFollowed older)
      · exact absurd (Catalog.tableName_mem older) (named ▸ fresh)
    · obtain ⟨rfl, onNew, represents⟩ := isKey index newer
      have sameName : table.name = newTable.name := named.symm.trans onNew
      rw [db.files.renamed_new, sameName, Function.update_self]
      exact represents
  have serves : Serves files.catalog files.reopen.objects stepping (Function.update shown newTable.name []) :=
    DatabaseFiles.reopen_serves heaps storable indexes
  refine serves.usable fun name => ?_
  by_cases isNew : name = newTable.name
  · rw [isNew, Function.update_self, Function.update_self]
  · rw [Function.update_of_ne isNew, Function.update_of_ne isNew]
    exact perm name

theorem createTable_survives_iff {name : String} {columns : List ColumnDef} {primaryKeyColumn : Option String}
    {objectId : Nat} {after : Catalog}
    (created : db.catalog.createTable name columns primaryKeyColumn = .ok (objectId, after)) {order : List Nat}
    {performed : List FileOp} (isPrefix : performed <+: db.fileOps order (.createTable name columns primaryKeyColumn)) :
    Survives db followed contents (.createTable name columns primaryKeyColumn) after performed ↔
      ∀ index, after.primaryKeyIndex name = some index → ¬ HeaderUnwritten index.objectId performed := by
  have checked : CatalogCall.create db.catalog (.createTable name columns primaryKeyColumn) = _ := created
  rw [Database.fileOps, checked] at isPrefix
  obtain ⟨rfl, fresh, columns_ne, columns_nodup, pushed⟩ := Catalog.createTable_ok created
  have elsewhere : ∀ index ∈ db.catalog.indexes, index.tableName ≠ name := fun index isIndex same =>
    fresh (same ▸ Catalog.tableName_mem isIndex)
  let newTable : TableInfo :=
    { name, columns, primaryKeyColumn, heapObjectId := db.catalog.nextObjectId, columns_ne, columns_nodup }
  rcases pushed with ⟨rfl, rfl⟩ | ⟨key, integer, rfl, rfl⟩
  · have noKey : (db.catalog.pushTable name columns none fresh columns_ne columns_nodup).primaryKeyIndex name = none :=
      List.find?_eq_none.mpr fun index isIndex => by simp [elsewhere index isIndex]
    have tables_eq : (db.catalog.pushTable name columns none fresh columns_ne columns_nodup).tables =
        db.catalog.tables ++ [newTable] := rfl
    simp only [noKey, reduceCtorEq, false_imp_iff, implies_true, iff_true]
    simp only [CatalogCall.objectOps, Option.isSome_none, Bool.false_eq_true, if_false] at isPrefix
    rcases FileOp.performed_cases isPrefix with ⟨unchanged, -, -⟩ | ⟨openedSoFar, done, rfl, -, -⟩
    · refine .inl ?_
      rw [unchanged]
      exact ⟨rfl, rest.unchanged_usable⟩
    · refine (survives_renamed checked (Nat.le_refl _) _ _).mpr ?_
      exact rest.createTable_usable tables_eq fresh rfl (List.append_nil _).symm (Nat.le_refl _) (by simp)
  · have isKey := primaryKeyIndex_pushed (db.catalog.pushTable ..) elsewhere integer
    simp only [CatalogCall.objectOps, Option.isSome_some, if_true, isKey] at isPrefix
    simp only [isKey, Option.some.injEq, forall_eq']
    rcases FileOp.performed_cases isPrefix with ⟨unchanged, -, untouched⟩ | ⟨openedSoFar, done, rfl, isDone, -⟩
    · refine iff_of_true (.inl ?_) fun unwritten => untouched _ unwritten.1
      rw [unchanged]
      exact ⟨rfl, rest.unchanged_usable⟩
    · have tables_eq : ((db.catalog.pushTable name columns (some key) fresh columns_ne columns_nodup).pushIndex
          (name ++ "." ++ key ++ "#pk") name key true integer).tables = db.catalog.tables ++ [newTable] := rfl
      have unused : db.catalog.nextObjectId ≤ db.catalog.nextObjectId + 1 := Nat.le_succ _
      rw [headerUnwritten_iff]
      refine (survives_renamed checked unused _ _).trans ⟨fun usable => ?_, fun written => ?_⟩
      · let catalog := (db.catalog.pushTable name columns (some key) fresh columns_ne columns_nodup).pushIndex
          (name ++ "." ++ key ++ "#pk") name key true integer
        let files := db.files.renamed catalog (db.catalog.nextObjectId + 1) (IndexFile.built done)
        let index : IndexInfo := ⟨name ++ "." ++ key ++ "#pk", name, key, db.catalog.nextObjectId + 1, true⟩
        have isTable : newTable ∈ files.catalog.tables := List.mem_append_right _ (List.mem_singleton_self _)
        have isIndex : index ∈ files.catalog.indexes := List.mem_append_right _ (List.mem_singleton_self _)
        have isNew : index ∉ db.catalog.indexes := fun older => elsewhere index older rfl
        obtain ⟨tree, present, search⟩ := usable.queries newTable isTable index
          (Catalog.mem_indexesOnTable.mpr ⟨isIndex, rfl⟩) (absurd · isNew)
        have reopened : files.reopen.objects index.objectId = _ := DatabaseFiles.reopen_index isIndex
        rw [db.files.renamed_new] at reopened
        cases present.symm.trans reopened
        have findsAll : IndexFile.FindsAll (IndexFile.built done).attachStorage [] := by
          intro key
          obtain ⟨rids, found, same⟩ := search key
          rw [CatalogCall.contents, Function.update_self] at same
          exact ⟨rids, found, same⟩
        rw [← IndexFile.fillOps_nil (.refl _)] at isDone
        exact IndexFile.not_zeroHeader done findsAll isDone
      · have represents := IndexFile.represents_constructor isDone written
        refine rest.createTable_usable tables_eq fresh rfl rfl unused fun index isIndex => ?_
        obtain rfl := List.mem_singleton.mp isIndex
        exact ⟨rfl, rfl, represents⟩

end Database.AtRest

/-- CREATE TABLE is not stopped between the extension of the key's file and the write of its header. CREATE INDEX is
stopped before the rename; or it has nothing to fill the index with, and is not stopped at that point either; or it comes
to its end, and no key fills more than a leaf. -/
def StopsSafely (db : Database) (contents : Contents) (order : List Nat) (call : CatalogCall) (objectId : Nat)
    (after : Catalog) (performed : List FileOp) : Prop :=
  match call with
  | .createTable name _ _ => ∀ index, after.primaryKeyIndex name = some index → ¬ HeaderUnwritten index.objectId performed
  | .createIndex _ tableName columnName =>
    (∀ catalog, .renameCatalog catalog ∉ performed) ∨
    (contents tableName = [] ∧ ¬ HeaderUnwritten objectId performed) ∨
    (performed = db.fileOps order call ∧ ∀ table ∈ db.catalog.tables, table.name = tableName → ∀ key,
      ((contents tableName).filter fun row => table.keyAt columnName row.2 = some key).length ≤ kLeafMaxKeys)

/-- The pages that CREATE INDEX leaves in the pool of the new index. -/
def Database.newIndex (db : Database) : CatalogCall → BPlusTree
  | .createTable _ _ _ => {}
  | .createIndex name tableName columnName =>
    match db.catalog.createIndex name tableName columnName with
    | .ok (objectId, after) => (db.backfill ⟨name, tableName, columnName⟩ objectId after).2
    | .error _ => {}

structure Database.RoomFor (db : Database) (call : CatalogCall) : Prop where
  -- AllocateObjectId counts in 32 bits, and no call takes more than two ids
  objectIds : db.catalog.nextObjectId + 2 < 2 ^ 32
  pageIds : (db.newIndex call).allocated < invalidPageId

/-- A CREATE statement that is refused does nothing. Any other can be stopped safely at these points and at no other. -/
theorem create_survives_iff {db : Database} {followed : IndexInfo → Prop} {contents : Contents}
    (rest : db.AtRest followed contents) (call : CatalogCall) {order : List Nat}
    (flushes : order.Perm (db.newIndex call).dirtyPages) (room : db.RoomFor call) :
    (∀ e, call.create db.catalog = .error e → db.fileOps order call = []) ∧
      ∀ objectId after, call.create db.catalog = .ok (objectId, after) → ∀ performed, performed <+: db.fileOps order call →
        (Survives db followed contents call after performed ↔
          StopsSafely db contents order call objectId after performed) := by
  refine ⟨fun e refused => by rw [Database.fileOps, refused], fun objectId after checked performed isPrefix => ?_⟩
  cases call with
  | createTable name columns primaryKeyColumn => exact rest.createTable_survives_iff checked isPrefix
  | createIndex name tableName columnName =>
    have created : db.catalog.createIndex name tableName columnName = .ok (objectId, after) := checked
    obtain ⟨-, -, table, -, -, found, -, -⟩ := Catalog.createIndex_ok created
    obtain ⟨isTable, named⟩ := Catalog.findTable_eq_some.mp found
    have backfilled := backfill_eq rest.idle rest.serves created found
    have newIndex_eq : db.newIndex (.createIndex name tableName columnName) =
        (IndexFile.filled (table.entries columnName (contents tableName))).2 := by
      rw [Database.newIndex, created]
      exact congrArg Prod.snd backfilled
    have ops_eq : db.fileOps order (.createIndex name tableName columnName) = createOps after [objectId] objectId
        (IndexFile.fillOps (table.entries columnName (contents tableName)) order) := by
      rw [Database.fileOps, checked]
      simp only [CatalogCall.objectOps, backfilled]
      rfl
    have few := room.pageIds
    rw [newIndex_eq] at flushes few
    rw [ops_eq] at isPrefix
    have onlyTable : ∀ {P : TableInfo → Prop}, (∀ other ∈ db.catalog.tables, other.name = tableName → P other) ↔ P table :=
      ⟨fun all => all table isTable named, fun holds other isOther same => by
        cases found.symm.trans (Catalog.findTable_eq_some.mpr ⟨isOther, same⟩)
        exact holds⟩
    rw [rest.createIndex_survives_iff created found flushes few isPrefix, StopsSafely, ops_eq, onlyTable]

/-- CREATE TABLE t (a INTEGER), INSERT INTO t VALUES (7). -/
def sevenSession : SqlSession := SqlSession.run { db := { catalog := emptyCatalog } } [createT, insertSeven]

theorem sevenSession_rest : sevenSession.db.AtRest (fun _ => True) sevenSession.db.contents := by
  have between : sevenSession.Between := (run_sevens (n := 1) (by decide)).between
  refine ⟨between.inactive, between.idle, serves_iff_lockstep.mpr between.lockstep, ?_⟩
  intro table isTable file present pageId unlisted
  cases List.mem_singleton.mp isTable
  have found : ∃ file, sevenSession.db.objects 0 = some (.heap file) ∧ file.pageIds = [0] ∧
      ∀ pageId, pageId ≠ 0 → file.pages pageId = {} := by
    refine ⟨_, rfl, rfl, fun pageId other => ?_⟩
    exact (Function.update_of_ne other ..).trans (Function.update_of_ne other ..)
  obtain ⟨only, present', pageIds_eq, others⟩ := found
  cases present.symm.trans present'
  rw [pageIds_eq, List.mem_singleton] at unlisted
  rw [HeapFile.rowsOn, others pageId unlisted]
  rfl

/-- CREATE INDEX i ON t (a). -/
def createIndexOnT : CatalogCall := .createIndex "i" "t" "a"

theorem create_survives_iff_complete : ∃ objectId after,
    createIndexOnT.create sevenSession.db.catalog = .ok (objectId, after) ∧
      Survives sevenSession.db (fun _ => True) sevenSession.db.contents createIndexOnT after
        (sevenSession.db.fileOps [0, 1] createIndexOnT) := by
  obtain ⟨-, iff⟩ := @create_survives_iff _ _ _ sevenSession_rest createIndexOnT [0, 1] (.refl _)
    ⟨by decide, by decide +kernel⟩
  refine ⟨_, _, rfl, (iff _ _ rfl _ (List.prefix_refl _)).mpr (.inr (.inr ⟨rfl, fun table isTable _ key => ?_⟩))⟩
  have few : (sevenSession.db.contents "t").length ≤ kLeafMaxKeys := by decide +kernel
  exact (List.length_filter_le _ _).trans few

/-- Stopped after the rename, it leaves an index that an equality query finds nothing in. -/
theorem createIndex_omits_row : ∃ objectId after tree,
    createIndexOnT.create sevenSession.db.catalog = .ok (objectId, after) ∧
      persistOps after <+: sevenSession.db.fileOps [0, 1] createIndexOnT ∧
      ((persistOps after).foldl DatabaseFiles.apply sevenSession.db.files).reopen.objects objectId = some (.index tree) ∧
      tree.search 7 = .ok [] ∧ sevenSession.db.contents "t" = [(⟨0, 0⟩, [.integer 7])] ∧
      ¬ Survives sevenSession.db (fun _ => True) sevenSession.db.contents createIndexOnT after (persistOps after) := by
  refine ⟨_, _, _, rfl, List.prefix_append _ _, rfl, rfl, rfl, ?_⟩
  rintro (⟨same, -⟩ | ⟨-, usable⟩)
  · cases congrArg (fun catalog => catalog.indexes.length) same
  · obtain ⟨tree, present, search⟩ := usable.queries plainTable List.mem_cons_self _ List.mem_cons_self fun _ => trivial
    obtain ⟨rids, found, perm⟩ := search 7
    cases present
    cases found
    exact absurd perm.length_eq (by decide)

end FlintDB
