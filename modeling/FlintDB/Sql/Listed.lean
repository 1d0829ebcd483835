import FlintDB.Sql.Answers

set_option autoImplicit false

-- A heap file that is opened again lists every page it has. That brings no rows to light if every page with rows was
-- on the list before, and it always was.

namespace FlintDB

open Lib Fallible Database

namespace HeapFile

def Listed (file : HeapFile) : Prop := ∀ pageId, pageId ∉ file.pageIds → file.rowsOn pageId = []

variable {file : HeapFile}

theorem listed_of_zero (allocated : Nat) : ({ allocated := allocated } : HeapFile).Listed := fun _ _ => rfl

theorem Listed.writePage (listed : file.Listed) {pageId : Nat} (isListed : pageId ∈ file.pageIds) (page : Page) :
    (file.writePage pageId page).Listed := by
  intro other unlisted
  have different : other ≠ pageId := fun same => unlisted (same ▸ isListed)
  rw [rowsOn_writePage, if_neg different]
  exact listed other unlisted

theorem Listed.newHeapPage (listed : file.Listed) : file.newHeapPage.2.Listed := by
  intro other unlisted
  show (file.writePage (BPlusTree.wrapPageId file.allocated) .initHeapPage).rowsOn other = []
  rw [rowsOn_writePage]
  split
  · rfl
  · exact listed other unlisted

theorem Listed.listPage (listed : file.Listed) (pageId : Nat) :
    ({ file with pageIds := file.pageIds ++ [pageId] } : HeapFile).Listed :=
  fun other unlisted => listed other fun older => unlisted (List.mem_append_left _ older)

theorem Listed.revert {start : HeapFile} (listed : start.Listed) (grown : start.Extends (start.revert file))
    (room : file.allocated < 2 ^ 32) : (start.revert file).Listed := by
  obtain ⟨extra, pageIds_eq, -⟩ := grown.listed room
  refine fun pageId unlisted => listed pageId fun older => unlisted ?_
  rw [pageIds_eq]
  exact List.mem_append_left _ older

end HeapFile

def AllListed (objects : Nat → Option ObjectStorage) : Prop :=
  ∀ objectId file, objects objectId = some (.heap file) → file.Listed

namespace AllListed

variable {objects : Nat → Option ObjectStorage} (listed : AllListed objects)
include listed

theorem update_heap (objectId : Nat) {file : HeapFile} (isListed : file.Listed) :
    AllListed (Function.update objects objectId (some (.heap file))) := by
  intro other found present
  by_cases here : other = objectId
  · rw [here, Function.update_self] at present
    cases present
    exact isListed
  · rw [Function.update_of_ne here] at present
    exact listed other found present

theorem update_index (objectId : Nat) (tree : BPlusTree) :
    AllListed (Function.update objects objectId (some (.index tree))) := by
  intro other found present
  by_cases here : other = objectId
  · rw [here, Function.update_self] at present
    cases present
  · rw [Function.update_of_ne here] at present
    exact listed other found present

end AllListed

namespace Database

-- Nobody else is there, and every page with rows is listed.
structure Orderly (db : Database) : Prop where
  alone : db.Alone
  listed : AllListed db.objects

variable {db : Database}

theorem Orderly.keeps_of_still {α : Type} {program : DatabaseM α} (still : ∀ origin : Database, Keeps origin.Still program) :
    Keeps Orderly program := by
  intro db orderly
  have kept := still db db (still_of_alone orderly.alone)
  have onward : ∀ {after : Database}, db.Still after → after.Orderly := fun unchanged =>
    ⟨unchanged.alone, unchanged.objects_eq ▸ orderly.listed⟩
  split at kept
  · exact onward kept
  · exact onward kept

theorem Orderly.attach_index (orderly : db.Orderly) (objectId : Nat) (tree : BPlusTree) :
    (db.attach objectId (.index tree)).Orderly :=
  ⟨⟨orderly.alone.still, orderly.alone.consistent, orderly.alone.own⟩, orderly.listed.update_index objectId tree⟩

theorem Orderly.attach_heap (orderly : db.Orderly) (objectId : Nat) {file : HeapFile} (listed : file.Listed) :
    (db.attach objectId (.heap file)).Orderly :=
  ⟨⟨orderly.alone.still, orderly.alone.consistent, orderly.alone.own⟩, orderly.listed.update_heap objectId listed⟩

theorem lockPage_orderly (objectId pageId : Nat) (mode : LockMode) : Keeps Orderly (lockPage objectId pageId mode) :=
  Orderly.keeps_of_still fun _ => lockPage_still objectId pageId mode

structure OnPage (objectId pageId : Nat) (db : Database) : Prop where
  orderly : db.Orderly
  isListed : ∀ file, db.objects objectId = some (.heap file) → pageId ∈ file.pageIds

theorem onPage_of_mem {file : HeapFile} {objectId pageId : Nat} (isListed : pageId ∈ file.pageIds) (db : Database)
    (found : db.Orderly ∧ db.objects objectId = some (.heap file)) : OnPage objectId pageId db := by
  refine ⟨found.1, fun other isThere => ?_⟩
  cases found.2.symm.trans isThere
  exact isListed

theorem lockPage_onPage {objectId pageId : Nat} {E : Database → Prop} (other page : Nat) (mode : LockMode) :
    Meets (OnPage objectId pageId) (lockPage other page mode) (fun _ => OnPage objectId pageId) E :=
  lockPage_meets other page mode (fun _ onPage => onPage.orderly.alone) fun _ _ onPage alone =>
    ⟨⟨alone, onPage.orderly.listed⟩, onPage.isListed⟩

theorem getHeapFile_finds {P : Database → Prop} (objectId : Nat) : Meets P (getHeapFile objectId)
    (fun file db => P db ∧ db.objects objectId = some (.heap file)) P := by
  refine Meets.get_bind fun db holds => ?_
  split
  · rename_i file present
    exact Meets.pure _ fun _ same => same ▸ ⟨holds, present⟩
  · exact Meets.throw _ fun _ same => same ▸ holds

theorem storeHeapFile_orderly {file : HeapFile} (listed : file.Listed) (objectId : Nat) {E : Database → Prop} :
    Meets Orderly (storeHeapFile objectId file) (fun _ => Orderly) E :=
  fun _ orderly => orderly.attach_heap objectId listed

theorem storeHeapFile_onPage (objectId pageId : Nat) (file : HeapFile) (page : Page) {E : Database → Prop} :
    Meets (fun db => OnPage objectId pageId db ∧ db.objects objectId = some (.heap file))
      (storeHeapFile objectId (file.writePage pageId page)) (fun _ => Orderly) E := by
  rintro db ⟨onPage, present⟩
  exact onPage.orderly.attach_heap objectId
    ((onPage.orderly.listed objectId file present).writePage (onPage.isListed file present) page)

theorem insertRecord_orderly (objectId pageId : Nat) (rowBytes : Bytes) :
    Meets (OnPage objectId pageId) (insertRecord objectId pageId rowBytes) (fun _ => Orderly) Orderly := by
  have found := (@getHeapFile_finds (OnPage objectId pageId) objectId).of_error fun _ onPage => onPage.orderly
  refine Meets.bind found fun file => ?_
  split
  · exact Meets.bind (storeHeapFile_onPage _ _ _ _) fun _ => Keeps.pure _
  · exact Meets.pure _ fun _ both => both.1.orderly

theorem insertIntoLastPage_orderly (objectId : Nat) (rowBytes : Bytes) :
    Keeps Orderly (insertIntoLastPage objectId rowBytes) := by
  refine Meets.bind (getHeapFile_finds objectId) fun file => ?_
  split
  · exact Meets.pure _ fun _ found => found.1
  · rename_i last isLast
    have isListed : last ∈ file.pageIds := List.mem_of_getLast? isLast
    have inserts : Meets (OnPage objectId last) (do
        lockPage objectId last .kExclusive
        insertRecord objectId last rowBytes) (fun _ => Orderly) Orderly :=
      Meets.bind (lockPage_onPage _ _ _) fun _ => insertRecord_orderly _ _ _
    exact inserts.of_pre (onPage_of_mem isListed)

theorem pushPage_orderly {α : Type} (objectId pageId : Nat) (rowBytes : Bytes) {file : HeapFile}
    (listed : file.Listed) {next : Option RID → DatabaseM α} (goesOn : ∀ inserted, Keeps Orderly (next inserted)) :
    Keeps Orderly (do
      storeHeapFile objectId file
      lockPage objectId pageId .kExclusive
      let again ← getHeapFile objectId
      storeHeapFile objectId { again with pageIds := again.pageIds ++ [pageId] }
      let inserted ← insertRecord objectId pageId rowBytes
      next inserted) := by
  refine Meets.bind (storeHeapFile_orderly listed objectId) fun _ => Meets.bind (lockPage_orderly _ _ _) fun _ =>
    Meets.bind (getHeapFile_finds objectId) fun again => ?_
  have lists : Meets (fun db => db.Orderly ∧ db.objects objectId = some (.heap again))
      (storeHeapFile objectId { again with pageIds := again.pageIds ++ [pageId] })
      (fun _ => OnPage objectId pageId) Orderly := by
    rintro db ⟨orderly, present⟩
    have listed := (orderly.listed objectId again present).listPage pageId
    refine ⟨orderly.attach_heap objectId listed, fun other isThere => ?_⟩
    rw [attach_objects, Function.update_self] at isThere
    cases isThere
    exact List.mem_append_right _ (List.mem_singleton_self _)
  exact Meets.bind lists fun _ => Meets.bind (insertRecord_orderly _ _ _) goesOn

theorem insertIntoNewPage_orderly (objectId : Nat) (rowBytes : Bytes) :
    Keeps Orderly (insertIntoNewPage objectId rowBytes) := by
  refine Meets.bind (getHeapFile_finds objectId) fun file => ?_
  rintro db ⟨orderly, present⟩
  have fresh := (orderly.listed objectId file present).newHeapPage
  refine pushPage_orderly objectId file.newHeapPage.1 rowBytes fresh (fun inserted => ?_) db orderly
  cases inserted with
  | none => exact Keeps.throw _
  | some rid => exact Keeps.pure _

theorem heapInsert_orderly (objectId : Nat) (rowBytes : Bytes) : Keeps Orderly (heapInsert objectId rowBytes) := by
  rw [heapInsert]
  split
  · exact Keeps.throw _
  · refine Keeps.bind (insertIntoLastPage_orderly objectId rowBytes) fun inserted => ?_
    split
    · exact Keeps.pure _
    · exact insertIntoNewPage_orderly objectId rowBytes

theorem tombstone_orderly (objectId : Nat) (rid : RID) :
    Meets (OnPage objectId rid.pageId) (heapDelete.tombstone objectId rid) (fun _ => Orderly) Orderly := by
  have found := (@getHeapFile_finds (OnPage objectId rid.pageId) objectId).of_error fun _ onPage => onPage.orderly
  refine Meets.bind found fun file => ?_
  simp only
  split
  · exact Meets.bind (storeHeapFile_onPage _ _ _ _) fun _ => Keeps.pure _
  · exact Meets.pure _ fun _ both => both.1.orderly

theorem heapDelete_orderly (objectId : Nat) (rid : RID) : Keeps Orderly (heapDelete objectId rid) := by
  refine Meets.bind (getHeapFile_finds objectId) fun file => ?_
  split
  · rename_i isListed
    have deletes : Meets (OnPage objectId rid.pageId) (do
        lockPage objectId rid.pageId .kExclusive
        heapDelete.tombstone objectId rid) (fun _ => Orderly) Orderly :=
      Meets.bind (lockPage_onPage _ _ _) fun _ => tombstone_orderly objectId rid
    exact deletes.of_pre (onPage_of_mem isListed)
  · exact Meets.pure _ fun _ found => found.1

theorem modifyIndex_orderly {α : Type} (objectId : Nat) (operation : BTreeM α) :
    Keeps Orderly (modifyIndex objectId operation) := by
  refine Keeps.bind (lockPage_orderly _ _ _) fun _ => Keeps.bind
    (Orderly.keeps_of_still fun _ => getIndex_still objectId) fun tree => ?_
  have stores : Keeps Orderly (modify (·.attach objectId (.index (operation.exec tree).2)) : DatabaseM PUnit) :=
    fun db orderly => orderly.attach_index objectId _
  exact Keeps.bind stores fun _ => Keeps.lift _

end Database

theorem insertIntoAllIndexes_orderly (catalog : Catalog) (table : TableInfo) (values : List LiteralValue) (rid : RID) :
    Keeps Orderly (insertIntoAllIndexes catalog table values rid) :=
  Keeps.forM (fun _ => Keeps.bind (Keeps.lift _) fun _ => modifyIndex_orderly _ _) _

theorem deleteFromAllIndexes_orderly (catalog : Catalog) (table : TableInfo) (values : List LiteralValue) (rid : RID) :
    Keeps Orderly (deleteFromAllIndexes catalog table values rid) :=
  Keeps.forM (fun _ => Keeps.bind (Keeps.lift _) fun _ => Keeps.bind (modifyIndex_orderly _ _) fun _ => Keeps.pure _) _

theorem heapFileForTable_orderly (tableName : String) : Keeps Orderly (heapFileForTable tableName) :=
  Orderly.keeps_of_still fun _ => heapFileForTable_still tableName

theorem fetchCandidateRows_orderly (access : TableAccessPlan) : Keeps Orderly (fetchCandidateRows access) :=
  Orderly.keeps_of_still fun _ => fetchCandidateRows_still access

theorem checkPrimaryKeyUniqueness_orderly (catalog : Catalog) (table : TableInfo) (values : List LiteralValue) :
    Keeps Orderly (checkPrimaryKeyUniqueness catalog table values) := by
  unfold checkPrimaryKeyUniqueness
  split
  · exact Keeps.pure _
  · refine Keeps.bind (Keeps.lift _) fun key => Keeps.bind
      (Orderly.keeps_of_still fun _ => indexSearch_still _ _) fun found => ?_
    split
    · exact Keeps.pure _
    · exact Keeps.throw _

theorem validateUpdateBatch_orderly (catalog : Catalog) (table : TableInfo) (updates : List RowUpdate) :
    Keeps Orderly (validateUpdateBatch catalog table updates) := by
  have checks : ∀ index key, Keeps Orderly (validateUpdateBatch.checkKey table updates index key) := fun index key => by
    refine Keeps.bind (Orderly.keeps_of_still fun _ => indexSearch_still _ _) fun found => ?_
    split
    · exact Keeps.throw _
    · exact Keeps.pure _
  unfold validateUpdateBatch
  split
  · exact Keeps.throw _
  · split
    · exact Keeps.pure _
    · refine Keeps.bind (Keeps.lift _) fun keys => ?_
      split
      · exact Keeps.throw _
      · exact Keeps.forM (checks _) _

theorem deleteRow_orderly (catalog : Catalog) (table : TableInfo) (heap : Nat) (row : RID × List LiteralValue) :
    Keeps Orderly (deleteRow catalog table heap row) :=
  Keeps.bind (deleteFromAllIndexes_orderly _ _ _ _) fun _ => Keeps.bind (heapDelete_orderly _ _) fun _ => Keeps.pure _

theorem executeInsert_orderly (stmt : InsertStatement) : Keeps Orderly (executeInsert stmt) := by
  refine Keeps.get_bind fun db => ?_
  simp only
  split
  · exact Keeps.throw _
  · exact Keeps.bind (Keeps.lift _) fun _ => Keeps.bind (checkPrimaryKeyUniqueness_orderly _ _ _) fun _ =>
      Keeps.bind (heapFileForTable_orderly _) fun _ => Keeps.bind (heapInsert_orderly _ _) fun _ =>
      Keeps.bind (insertIntoAllIndexes_orderly _ _ _ _) fun _ => Keeps.pure _

theorem executeDelete_orderly (stmt : DeleteStatement) : Keeps Orderly (executeDelete stmt) := by
  have deletes : ∀ catalog table heap residual row,
      Keeps Orderly (executeDelete.deleteIfMatching catalog table heap residual row) := fun _ _ _ _ _ =>
    Keeps.bind (Keeps.lift _) fun _ => Keeps.bind (Keeps.forM (deleteRow_orderly _ _ _) _) fun _ => Keeps.pure _
  exact Keeps.get_bind fun db => Keeps.bind (Keeps.lift _) fun _ => Keeps.bind (Keeps.lift _) fun _ =>
    Keeps.bind (heapFileForTable_orderly _) fun _ => Keeps.bind (fetchCandidateRows_orderly _) fun _ =>
    Keeps.bind (Meets.collect (deletes _ _ _ _) _) fun _ => Keeps.pure _

theorem executeUpdate_orderly (stmt : UpdateStatement) : Keeps Orderly (executeUpdate stmt) := by
  have updates : ∀ catalog table heap update, Keeps Orderly (updateRow catalog table heap update) := fun _ _ _ _ =>
    Keeps.bind (deleteRow_orderly _ _ _ _) fun _ => Keeps.bind (heapInsert_orderly _ _) fun _ =>
      insertIntoAllIndexes_orderly _ _ _ _
  refine Keeps.get_bind fun db => ?_
  simp only
  split
  · exact Keeps.throw _
  · exact Keeps.bind (Keeps.lift _) fun _ => Keeps.bind (Keeps.lift _) fun _ =>
      Keeps.bind (heapFileForTable_orderly _) fun _ => Keeps.bind (fetchCandidateRows_orderly _) fun _ =>
      Keeps.bind (Meets.collect (fun _ => Keeps.lift _) _) fun _ => Keeps.bind (validateUpdateBatch_orderly _ _ _) fun _ =>
      Keeps.bind (Keeps.forM (updates _ _ _) _) fun _ => Keeps.pure _

theorem requireNoActiveTransaction_orderly (statementKind : String) :
    Keeps Orderly (requireNoActiveTransaction statementKind) := by
  refine Keeps.get_bind fun db => ?_
  split
  · exact Keeps.pure _
  · exact Keeps.throw _

theorem executeCreateTable_orderly (stmt : CreateTableStatement) : Keeps Orderly (executeCreateTable stmt) := by
  have creates : Keeps Orderly (createTable stmt.tableName stmt.columns stmt.primaryKeyColumn) := by
    refine Meets.get_bind fun db orderly => Meets.bind (Meets.lift (Q := fun _ => (· = db)) (fun _ _ _ same => same)
      fun _ same => same ▸ orderly) fun created => ?_
    have heap : Meets (· = db) (set ({ db with catalog := created.2 }.attach created.1 (.heap {})) : DatabaseM PUnit)
        (fun _ => Orderly) Orderly := fun _ _ =>
      ⟨⟨orderly.alone.still, orderly.alone.consistent, orderly.alone.own⟩,
        orderly.listed.update_heap created.1 (HeapFile.listed_of_zero 0)⟩
    refine Meets.bind heap fun _ => ?_
    split
    · split
      · have index : ∀ objectId, Keeps Orderly (modify (·.attach objectId (.index {})) : DatabaseM PUnit) :=
          fun objectId _ orderly => orderly.attach_index objectId {}
        exact Keeps.bind (index _) fun _ => Keeps.pure _
      · exact Keeps.throw _
    · exact Keeps.pure _
  exact Keeps.bind (requireNoActiveTransaction_orderly _) fun _ => Keeps.bind creates fun _ => Keeps.pure _

theorem executeCreateIndex_orderly (stmt : CreateIndexStatement) : Keeps Orderly (executeCreateIndex stmt) := by
  have fills : ∀ table column index row, Keeps Orderly (executeCreateIndex.backfill table column index row) :=
    fun _ _ _ _ => Keeps.bind (Keeps.lift _) fun _ => Keeps.bind (Keeps.lift _) fun _ => modifyIndex_orderly _ _
  have populates : ∀ index, Keeps Orderly (executeCreateIndex.populate stmt index) := fun index =>
    Keeps.get_bind fun db => Keeps.bind (Keeps.lift _) fun _ => Keeps.bind (Keeps.lift _) fun _ =>
      Keeps.bind (heapFileForTable_orderly _) fun _ =>
      Keeps.bind (Orderly.keeps_of_still fun _ => heapScan_still _) fun _ => Keeps.forM (fills _ _ _) _
  have creates : Keeps Orderly (createIndex stmt.indexName stmt.tableName stmt.columnName
      (executeCreateIndex.populate stmt)) := by
    refine Meets.get_bind fun db orderly => Meets.bind (Meets.lift (Q := fun _ => (· = db)) (fun _ _ _ same => same)
      fun _ same => same ▸ orderly) fun created => ?_
    have index : Meets (· = db) (set ({ db with catalog := created.2 }.attach created.1 (.index {})) : DatabaseM PUnit)
        (fun _ => Orderly) Orderly := fun _ _ =>
      ⟨⟨orderly.alone.still, orderly.alone.consistent, orderly.alone.own⟩, orderly.listed.update_index created.1 {}⟩
    exact Meets.bind index fun _ => Keeps.bind (populates _) fun _ => Keeps.pure _
  exact Keeps.bind (requireNoActiveTransaction_orderly _) fun _ => Keeps.bind creates fun _ => Keeps.pure _

end FlintDB
