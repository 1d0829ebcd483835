import FlintDB.Db.CrashedCreate
import FlintDB.Sql.Listed
import FlintDB.Sql.ParsedStatements
import FlintDB.Sql.Transactions

set_option autoImplicit false

-- The process can come to its end between any two statements, in the middle of a transaction too, and the directory
-- be opened again. What it then tells are the rows of the last COMMIT.

namespace FlintDB

open Lib Fallible Database

namespace Catalog

variable (catalog : Catalog)

def indexesByTable : List IndexInfo := catalog.tables.flatMap fun table => catalog.indexesOnTable table.name

theorem filter_indexesByTable (tableName : String) :
    (catalog.indexesByTable.filter fun index => index.tableName = tableName) = catalog.indexesOnTable tableName := by
  have picked : (catalog.indexesByTable.filter fun index => index.tableName = tableName) =
      (catalog.tables.map TableInfo.name).flatMap fun name =>
        if name = tableName then catalog.indexesOnTable tableName else [] := by
    rw [indexesByTable, List.filter_flatMap, List.flatMap_map]
    refine List.flatMap_congr fun table _ => ?_
    rw [indexesOnTable, List.filter_filter]
    split
    · rename_i same
      simp [indexesOnTable, same]
    · rename_i different
      refine List.filter_eq_nil_iff.mpr fun index _ => ?_
      simp only [Bool.and_eq_true, decide_eq_true_eq, not_and]
      exact fun here there => different (there.symm.trans here)
  rw [picked]
  refine flatMap_pick catalog.names_nodup tableName _ fun some => ?_
  obtain ⟨index, onTable⟩ := List.exists_mem_of_ne_nil _ some
  obtain ⟨isIndex, named⟩ := mem_indexesOnTable.mp onTable
  exact named ▸ tableName_mem isIndex

theorem indexesByTable_perm : catalog.indexesByTable.Perm catalog.indexes := by
  refine List.perm_iff_count.mpr fun index => ?_
  have own : ∀ indexes : List IndexInfo,
      (indexes.filter fun other => other.tableName = index.tableName).count index = indexes.count index :=
    fun indexes => List.count_filter (decide_eq_true rfl)
  rw [← own, filter_indexesByTable, indexesOnTable, own]

theorem indexesByTable_integer : ∀ index ∈ catalog.indexesByTable, index.OverInteger catalog.tables :=
  fun index isIndex => catalog.indexes_integer index (catalog.indexesByTable_perm.mem_iff.mp isIndex)

theorem indexesByTable_ids :
    (catalog.tables.map TableInfo.heapObjectId ++ catalog.indexesByTable.map IndexInfo.objectId).Perm
      (catalog.tables.map TableInfo.heapObjectId ++ catalog.indexes.map IndexInfo.objectId) :=
  (catalog.indexesByTable_perm.map _).append_left _

theorem indexesByTable_nodup :
    (catalog.tables.map TableInfo.heapObjectId ++ catalog.indexesByTable.map IndexInfo.objectId).Nodup :=
  catalog.indexesByTable_ids.nodup_iff.mpr catalog.ids_nodup

theorem indexesByTable_lt :
    ∀ id ∈ catalog.tables.map TableInfo.heapObjectId ++ catalog.indexesByTable.map IndexInfo.objectId,
      id < catalog.nextObjectId :=
  fun id isId => catalog.ids_lt id (catalog.indexesByTable_ids.mem_iff.mp isId)

-- What the next open makes of catalog.meta.
def reopened : Catalog where
  tables := catalog.tables
  indexes := catalog.indexesByTable
  nextObjectId := catalog.nextObjectId
  names_nodup := catalog.names_nodup
  indexes_integer := catalog.indexesByTable_integer
  ids_nodup := catalog.indexesByTable_nodup
  ids_lt := catalog.indexesByTable_lt

theorem reopened_indexesOnTable (tableName : String) :
    catalog.reopened.indexesOnTable tableName = catalog.indexesOnTable tableName := catalog.filter_indexesByTable tableName

theorem reopened_primaryKeyIndex (tableName : String) :
    catalog.reopened.primaryKeyIndex tableName = catalog.primaryKeyIndex tableName := by
  have among : ∀ other : Catalog, other.primaryKeyIndex tableName =
      (other.indexesOnTable tableName).find? fun index => index.isPrimaryKey := fun other => by
    simp [primaryKeyIndex, indexesOnTable, List.find?_filter]
  rw [among, among, reopened_indexesOnTable]

variable {catalog}

structure Readable (catalog : Catalog) : Prop where
  named : catalog.content.Named
  keys : ∀ table ∈ catalog.tables, table.primaryKeyColumn ≠ some "NONE"

theorem Readable.content_reopened (readable : catalog.Readable) :
    catalog.reopened.content = catalog.content.reread := by
  have tables : catalog.tables.map TableInfo.content = (catalog.tables.map TableInfo.content).map TableContent.reread := by
    rw [List.map_map, List.map_inj_left]
    exact fun table isTable => (TableContent.reread_eq.mpr (readable.keys table isTable)).symm
  have indexes : catalog.indexesByTable.map IndexInfo.content =
      (catalog.tables.map TableInfo.content).flatMap fun table => catalog.content.indexesOnTable table.name := by
    rw [indexesByTable, List.map_flatMap, List.flatMap_map]
    refine List.flatMap_congr fun table _ => ?_
    rw [indexesOnTable, CatalogContent.indexesOnTable, content, List.filter_map]
    rfl
  rw [content, CatalogContent.reread, CatalogContent.mk.injEq]
  exact ⟨tables, indexes, rfl⟩

theorem Readable.load_persist (readable : catalog.Readable) (dirPath : String) :
    ((load dirPath).exec catalog.content.persist).1 = .ok catalog.reopened.content := by
  rw [readable.content_reopened]
  exact readable.named.load_persist dirPath

theorem Readable.reopened (readable : catalog.Readable) : catalog.reopened.Readable := by
  refine ⟨⟨readable.named.tables, readable.named.columns, readable.named.primaryKeys, fun index isIndex => ?_⟩,
    readable.keys⟩
  exact readable.named.indexes index ((catalog.indexesByTable_perm.map IndexInfo.content).mem_iff.mp isIndex)

theorem Readable.create (readable : catalog.Readable) {call : CatalogCall} (names : ∀ word ∈ call.names, IsIdentifier word)
    (key : call.primaryKeyColumn ≠ some "NONE") {objectId : Nat} {after : Catalog}
    (created : call.create catalog = .ok (objectId, after)) : after.Readable := by
  have before : catalog.persisted.After
      (catalog.tables.map fun table => .createTable table.name table.columns table.primaryKeyColumn) :=
    ⟨readable.named, .inl rfl, fun key => by simp [persisted, CatalogCall.primaryKeyColumn]⟩
  have applied : call.apply catalog.persisted = .ok after.persisted := by
    cases call with
    | createTable name columns primaryKeyColumn =>
      exact bind_eq_ok.mpr ⟨(objectId, after), created, rfl⟩
    | createIndex name tableName columnName =>
      exact bind_eq_ok.mpr ⟨(objectId, after), created, rfl⟩
  have next := CatalogCall.apply_after names before applied
  refine ⟨next.named, fun table isTable isNone => ?_⟩
  obtain ⟨other, isOther, named⟩ := (next.keys "NONE").mp ⟨table, isTable, isNone⟩
  rcases List.mem_append.mp isOther with older | newest
  · obtain ⟨table, isTable, rfl⟩ := List.mem_map.mp older
    exact readable.keys table isTable named
  · rw [List.mem_singleton.mp newest] at named
    exact key named

theorem readable_empty : emptyCatalog.Readable := by
  refine ⟨⟨?_, ?_, ?_, ?_⟩, ?_⟩ <;> simp [emptyCatalog, content]

theorem Keyed.reopened (keyed : catalog.Keyed) : catalog.reopened.Keyed := by
  refine ⟨(catalog.indexesByTable_perm.map IndexInfo.name).nodup_iff.mpr keyed.distinct, keyed.tables,
    fun index isIndex => keyed.indexes index (catalog.indexesByTable_perm.mem_iff.mp isIndex), fun table isTable => ?_⟩
  rw [reopened_primaryKeyIndex]
  exact keyed.keyed table isTable

end Catalog

theorem Realizes.reopened {catalog : Catalog} {objects : Nat → Option ObjectStorage}
    {rows : String → List (List LiteralValue)} (realizes : Realizes catalog objects rows) :
    Realizes catalog.reopened objects rows := by
  obtain ⟨⟨contents, lockstep, same⟩, unique⟩ := realizes
  refine ⟨⟨contents, ⟨lockstep.heap, lockstep.storable, fun table isTable index onTable => ?_⟩, same⟩, unique⟩
  rw [Catalog.reopened_indexesOnTable] at onTable
  exact lockstep.index table isTable index onTable

namespace SqlSession

/-- What is in the directory when the process comes to its end: of an open transaction there are pages that are all zero,
and nothing else. What is in the log is in the files of the objects too. -/
def left (session : SqlSession) : Database where
  catalog := session.db.catalog.reopened
  objects objectId := revertObject (session.files objectId) (session.db.objects objectId)

-- The constructor of Database, over that directory. RunRecovery, which comes first there, is left out: between two
-- statements every Commit has returned, with its pages flushed, and the files show what the log would redo.
def restart (session : SqlSession) : SqlSession where
  db := session.left.files.reopen
  files := session.left.files.reopen.objects

end SqlSession

/-- Relations that outlive the process: what a transaction had not committed is gone. -/
def Relations.restart (r : Relations) : Relations := ⟨r.catalog.reopened, r.saved.getD r.rows, none⟩

theorem Realizes.attached {db : Database} {rows : String → List (List LiteralValue)} (inactive : db.activeTxns = ∅)
    (idle : db.currentTransaction = none) (listed : AllListed db.objects)
    (realizes : Realizes db.catalog db.objects rows) : Realizes db.catalog db.files.reopen.objects rows := by
  obtain ⟨⟨contents, lockstep, same⟩, unique⟩ := realizes
  have rest : db.AtRest (fun _ => True) contents :=
    ⟨inactive, idle, serves_iff_lockstep.mpr lockstep, fun table _ file present => listed _ file present⟩
  obtain ⟨shown, perm, heap⟩ := rest.shown
  have serves : Serves db.files.catalog db.files.reopen.objects (fun _ => True) shown :=
    DatabaseFiles.reopen_serves heap (fun table isTable => rest.shown_storable perm isTable)
      fun table isTable index onTable isFollowed => rest.stored_index perm isTable onTable isFollowed
  refine ⟨⟨shown, serves_iff_lockstep.mp serves, fun table isTable => ?_⟩, unique⟩
  exact ((perm table.name).map Prod.snd).trans (same table isTable)

namespace AllListed

variable {files objects : Nat → Option ObjectStorage} (stored : AllListed files)
include stored

theorem revert (working : AllListed objects)
    (grown : ∀ objectId, ObjectStorage.Extends (files objectId) (SqlSession.revertObject (files objectId) (objects objectId)))
    (room : ∀ objectId file, SqlSession.revertObject (files objectId) (objects objectId) = some (.heap file) →
      file.allocated < 2 ^ 32) :
    AllListed fun objectId => SqlSession.revertObject (files objectId) (objects objectId) := by
  intro objectId file present
  change SqlSession.revertObject (files objectId) (objects objectId) = some (.heap file) at present
  have grown := grown objectId
  have room := room objectId file present
  simp only [present] at grown
  cases start : files objectId with
  | none =>
    rw [start] at present
    cases reached : objects objectId <;> rw [reached] at present
    · cases present
    · exact working objectId file (reached.trans present)
  | some begun =>
    rw [start] at present grown
    cases begun with
    | index tree => exact grown.elim
    | heap begun =>
      cases reached : objects objectId with
      | none =>
        rw [reached] at present
        cases present
      | some storage =>
        rw [reached] at present
        cases storage with
        | index tree => cases present
        | heap now =>
          cases present
          exact (stored objectId begun start).revert grown room

theorem orUnflushed : AllListed fun objectId => SqlSession.orUnflushed (files objectId) (objects objectId) := by
  intro objectId file present
  cases start : files objectId with
  | some storage =>
    simp only [start] at present
    exact stored objectId file (start.trans present)
  | none =>
    simp only [start] at present
    cases made : objects objectId with
    | none =>
      rw [made] at present
      cases present
    | some storage =>
      rw [made] at present
      cases storage with
      | index tree => cases present
      | heap made =>
        cases present
        exact HeapFile.listed_of_zero _

end AllListed

theorem HeapFile.listed_reopen (file : HeapFile) (zero : ∀ pageId, file.allocated ≤ pageId → file.rowsOn pageId = []) :
    file.reopen.Listed := fun pageId unlisted =>
  zero pageId (Nat.not_lt.mp fun below => unlisted (List.mem_range.mpr below))

namespace SqlSession

variable {session : SqlSession} {r : Relations}

structure Listed (session : SqlSession) : Prop where
  working : AllListed session.db.objects
  stored : AllListed session.files

theorem room_revertObject {files : Nat → Option ObjectStorage} {db : Database}
    (grown : ∀ objectId, ObjectStorage.Extends (files objectId) (db.objects objectId)) (room : db.HasRoom) (objectId : Nat)
    (file : HeapFile) (present : revertObject (files objectId) (db.objects objectId) = some (.heap file)) :
    file.allocated < 2 ^ 32 := by
  have grown := grown objectId
  have room := room.heap objectId
  revert grown room present
  cases files objectId with
  | none =>
    cases db.objects objectId with
    | none => exact fun present => by cases present
    | some storage => exact fun _ grown => grown.elim
  | some start =>
    cases db.objects objectId with
    | none => exact fun present => by cases present
    | some storage =>
      cases start <;> cases storage
      · rename_i start now
        intro present _ room
        cases present
        exact room now rfl
      · exact fun present => by cases present
      · exact fun _ grown => grown.elim
      · exact fun present => by cases present

theorem Tracks.restarts (tracks : session.Tracks r) (listed : session.Listed) (room : session.db.HasRoom) :
    session.restart.Tracks r.restart := by
  have reverted := tracks.stored.revert tracks.grown room
  have left : Realizes session.left.catalog session.left.objects (r.saved.getD r.rows) := by
    show Realizes session.db.catalog.reopened _ _
    rw [tracks.catalog_eq]
    exact reverted.reopened
  have allListed : AllListed session.left.objects := listed.stored.revert listed.working
    (fun objectId => extends_revertObject (tracks.grown objectId)) (room_revertObject tracks.grown room)
  have realizes := left.attached rfl rfl allListed
  have catalog_eq : session.left.catalog = r.restart.catalog := congrArg Catalog.reopened tracks.catalog_eq
  rw [catalog_eq] at realizes
  refine ⟨catalog_eq, ⟨rfl, LockManager.consistent_empty, fun other key held => ?_⟩, tracks.keyed.reopened, realizes,
    realizes, fun objectId => ObjectStorage.Extends.refl _, fun _ => ⟨rfl, rfl, fun objectId => revertObject_self _⟩,
    (fun _ isOpen => by cases isOpen)⟩
  simp [restart, DatabaseFiles.reopen, LockManager.Holds, LockManager.HoldsExclusive, LockManager.HoldsShared] at held

theorem listed_restart {r' : Relations} (tracks : session.restart.Tracks r') : AllListed session.restart.db.objects := by
  intro objectId file present
  rw [restart, DatabaseFiles.reopen] at present
  simp only at present
  split at present
  · rename_i isHeap
    obtain ⟨table, isTable, rfl⟩ := List.mem_map.mp isHeap
    obtain ⟨contents, lockstep, -⟩ := tracks.working.lockstep
    obtain ⟨sameFile, there, sound, -⟩ := lockstep.heap table (tracks.catalog_eq ▸ isTable)
    cases (DatabaseFiles.reopen_heap isTable).symm.trans there
    cases present
    refine HeapFile.listed_reopen _ fun pageId beyond => ?_
    have zero : (session.left.files.heapFile table.heapObjectId).pages pageId = {} := sound.zero pageId beyond
    rw [HeapFile.rowsOn, zero]
    rfl
  · split at present <;> cases present

theorem Listed.ddl (listed : session.Listed) (alone : session.db.Alone) {program : DatabaseM ExecuteResult}
    (keeps : Keeps Orderly program) : Listed ((executeDdl program).exec session).2 := by
  have kept := keeps session.db ⟨alone, listed.working⟩
  rw [executeDdl_exec]
  revert kept
  cases program.exec session.db with
  | mk outcome db =>
    cases outcome with
    | ok result => exact fun orderly => ⟨orderly.listed, orderly.listed⟩
    | error e => exact fun orderly => ⟨orderly.listed, listed.stored.orUnflushed⟩

theorem Listed.autocommit (listed : session.Listed) (tracks : session.Tracks r) {program : DatabaseM ExecuteResult}
    (keeps : Keeps Orderly program)
    (grown : ∀ objectId, ObjectStorage.Extends (((executeAutocommit program).exec session).2.files objectId)
      (((executeAutocommit program).exec session).2.db.objects objectId))
    (room : ((executeAutocommit program).exec session).2.db.HasRoom) :
    Listed ((executeAutocommit program).exec session).2 := by
  cases running : session.db.currentTransaction with
  | some txnId =>
    have runs : (executeAutocommit program).exec session =
        ((program.exec session.db).1, { session with db := (program.exec session.db).2 }) := by
      rw [executeAutocommit, exec_bind_ok (exec_get session), running]
      rfl
    have kept := keeps session.db ⟨tracks.alone, listed.working⟩
    rw [runs]
    revert kept
    cases program.exec session.db with
    | mk outcome db => cases outcome <;> exact fun orderly => ⟨orderly.listed, listed.stored⟩
  | none =>
    have alone : (begun session.db).Alone := ⟨tracks.alone.still, tracks.alone.consistent, fun other key held => by
      cases running.symm.trans (tracks.alone.own other key held)⟩
    have kept := keeps (begun session.db) ⟨alone, listed.working⟩
    rw [executeAutocommit_exec running] at grown room ⊢
    revert kept grown room
    cases program.exec (begun session.db) with
    | mk outcome db =>
      cases outcome with
      | ok result => exact fun _ _ orderly => ⟨orderly.listed, orderly.listed⟩
      | error e =>
        exact fun grown room orderly => ⟨listed.stored.revert orderly.listed grown room.heap, listed.stored⟩

theorem Listed.step (listed : session.Listed) (tracks : session.Tracks r) (stmt : Statement) {r' : Relations}
    (after : Tracks ((execute stmt).exec session).2 r') (room : ((execute stmt).exec session).2.db.HasRoom) :
    Listed ((execute stmt).exec session).2 := by
  cases stmt with
  | begin =>
    rw [execute, executeBegin, beginTransaction, bind_assoc, exec_bind_ok (exec_get session)]
    cases session.db.currentTransaction <;> exact ⟨listed.working, listed.stored⟩
  | commit =>
    rw [execute, executeCommit, exec_bind_ok (exec_get session)]
    cases session.db.currentTransaction with
    | none => exact listed
    | some txnId => exact ⟨listed.working, listed.working⟩
  | rollback =>
    have grown := after.grown
    revert grown room
    rw [execute, executeRollback, exec_bind_ok (exec_get session)]
    cases session.db.currentTransaction with
    | none => exact fun _ _ => listed
    | some txnId => exact fun room grown => ⟨listed.stored.revert listed.working grown room.heap, listed.stored⟩
  | createTable stmt => exact listed.ddl tracks.alone (executeCreateTable_orderly stmt)
  | createIndex stmt => exact listed.ddl tracks.alone (executeCreateIndex_orderly stmt)
  | insert stmt => exact listed.autocommit tracks (executeInsert_orderly stmt) after.grown room
  | update stmt => exact listed.autocommit tracks (executeUpdate_orderly stmt) after.grown room
  | delete stmt => exact listed.autocommit tracks (executeDelete_orderly stmt) after.grown room
  | select stmt =>
    exact listed.autocommit tracks (Orderly.keeps_of_still fun _ => executeSelect_still stmt) after.grown room

end SqlSession

inductive SessionEvent
  | statement (stmt : Statement)
  | restart

/-- A table that is to be read back has no primary key with the name that stands for none. -/
def Statement.KeyReadable : Statement → Prop
  | .createTable stmt => stmt.primaryKeyColumn ≠ some "NONE"
  | _ => True

def SqlSession.live (session : SqlSession) : SessionEvent → Except Exception ExecuteResult × SqlSession
  | .statement stmt => session.respond stmt
  | .restart => (.ok {}, session.restart)

noncomputable def Relations.live (r : Relations) : SessionEvent → Option ExecuteResult × Relations
  | .statement stmt => r.execute stmt
  | .restart => (some {}, r.restart)

theorem Relations.execute_readable {r : Relations} (readable : r.catalog.Readable) {stmt : Statement}
    (wellFormed : stmt.WellFormed) (key : stmt.KeyReadable) : (r.execute stmt).2.catalog.Readable := by
  cases stmt with
  | begin =>
    rw [execute, beginTransaction]
    split <;> exact readable
  | commit =>
    rw [execute, commit]
    split <;> exact readable
  | rollback =>
    rw [execute, rollback]
    split <;> exact readable
  | createTable stmt =>
    obtain ⟨isName, -, areColumns, isKey⟩ := wellFormed
    rw [execute, createTable]
    split
    · rename_i heapId after saved created
      refine @Catalog.Readable.create _ readable (.createTable stmt.tableName stmt.columns stmt.primaryKeyColumn) ?_ key _ _
        created
      simp only [CatalogCall.names, List.cons_append, List.forall_mem_cons, List.forall_mem_append, List.forall_mem_map,
        Option.mem_toList]
      refine ⟨isName, areColumns, fun word isWord => ?_⟩
      obtain ⟨column, isColumn, rfl⟩ := List.mem_map.mp (isKey word isWord)
      exact areColumns column isColumn
    · exact readable
  | createIndex stmt =>
    obtain ⟨isName, isTable, isColumn⟩ := wellFormed
    rw [execute, createIndex]
    split
    · rename_i objectId after saved created
      refine @Catalog.Readable.create _ readable (.createIndex stmt.indexName stmt.tableName stmt.columnName) ?_
        (by simp [CatalogCall.primaryKeyColumn]) _ _ created
      simp [CatalogCall.names, isName, isTable, isColumn]
    · exact readable
  | insert stmt => exact (mutate_catalog r (.insert stmt)).symm ▸ readable
  | update stmt => exact (mutate_catalog r (.update stmt)).symm ▸ readable
  | delete stmt => exact (mutate_catalog r (.delete stmt)).symm ▸ readable
  | select stmt =>
    rw [execute, query]
    split <;> exact readable

structure SqlSession.Outlives (session : SqlSession) (r : Relations) : Prop where
  tracks : session.Tracks r
  listed : session.Listed
  readable : r.catalog.Readable

namespace SqlSession

variable {session : SqlSession} {r : Relations}

theorem outlives_nothing : Outlives {} .nothing := by
  refine ⟨tracks_nothing, ⟨?_, ?_⟩, Catalog.readable_empty⟩ <;>
  · intro objectId file present
    cases present

theorem Outlives.step (outlives : session.Outlives r) {event : SessionEvent}
    (wellFormed : ∀ stmt, event = .statement stmt → stmt.WellFormed ∧ stmt.KeyReadable)
    (limits : (r.live event).2.WithinLimits) (room : session.db.HasRoom) (roomAfter : (session.live event).2.db.HasRoom) :
    Answers (session.live event).1 (r.live event).1 ∧ Outlives (session.live event).2 (r.live event).2 := by
  cases event with
  | statement stmt =>
    obtain ⟨isStmt, key⟩ := wellFormed stmt rfl
    obtain ⟨answers, tracks⟩ := outlives.tracks.step (isStmt.named) limits room roomAfter
    exact ⟨answers, tracks, outlives.listed.step outlives.tracks stmt tracks roomAfter,
      r.execute_readable outlives.readable isStmt key⟩
  | restart =>
    have tracks := outlives.tracks.restarts outlives.listed room
    exact ⟨⟨List.Perm.refl _, rfl, rfl⟩, tracks, ⟨listed_restart tracks, listed_restart tracks⟩,
      outlives.readable.reopened⟩

end SqlSession

/-- Over any number of processes, each of which goes on where the last one has come to its end: the statements are
answered as relations answer them that forget, whenever a process ends, what has not been committed; and catalog.meta
always tells the next process the catalog. -/
theorem sessions_outlive_processes (events : List SessionEvent) (dirPath : String)
    (wellFormed : ∀ stmt, .statement stmt ∈ events → stmt.WellFormed ∧ stmt.KeyReadable)
    (limits : ∀ before, before <+: events → (Machine.after Relations.live .nothing before).WithinLimits)
    (room : ∀ before, before <+: events → (Machine.after SqlSession.live {} before).db.WithinIds) :
    List.Forall₂ Answers (Machine.answers SqlSession.live {} events) (Machine.answers Relations.live .nothing events) ∧
    ∀ before, before ++ [.restart] <+: events →
      ((load dirPath).exec (Machine.after SqlSession.live {} before).db.catalog.content.persist).1 =
        .ok (Machine.after SqlSession.live {} (before ++ [.restart])).db.catalog.content := by
  have simulates : ∀ part, part <+: events → List.Forall₂ Answers (Machine.answers SqlSession.live {} part)
      (Machine.answers Relations.live .nothing part) ∧
        SqlSession.Outlives (Machine.after SqlSession.live {} part) (Machine.after Relations.live .nothing part) := by
    intro part isPart
    refine Machine.simulates SqlSession.Outlives Answers SqlSession.outlives_nothing fun before event earlier outlives => ?_
    have within := earlier.trans isPart
    have limitsAfter := limits _ within
    have roomAfter := room _ within
    rw [Machine.after_snoc] at limitsAfter roomAfter
    refine outlives.step (fun stmt isStmt => wellFormed stmt ?_) limitsAfter
      (room before ((List.prefix_append _ _).trans within)).toHasRoom roomAfter.toHasRoom
    exact within.subset (by simp [isStmt])
  refine ⟨(simulates events (List.prefix_refl _)).1, fun before earlier => ?_⟩
  have outlives := (simulates before ((List.prefix_append _ _).trans earlier)).2
  have readable := outlives.readable
  rw [← outlives.tracks.catalog_eq] at readable
  rw [Machine.after_snoc]
  exact readable.load_persist dirPath

def forgotten : List SessionEvent :=
  [.statement (.createTable ⟨"t", [⟨"a", .kInteger⟩], none⟩), .statement .begin, .statement (.insert ⟨"t", [.integer 7]⟩),
    .restart, .statement (.select { selectStar := true, fromTable := "t" })]

theorem sessions_outlive_processes_forgotten : ∃ result,
    (Machine.answers SqlSession.live {} forgotten).getLast? = some (.ok result) ∧ result.rows = [] := by
  let opened : Relations := ⟨plainCatalog, Function.update (fun _ => []) "t" [], some (Function.update (fun _ => []) "t" [])⟩
  let inserted : Relations := (opened.mutate (.insert ⟨"t", [.integer 7]⟩)).2
  have restarted : inserted.restart = ⟨plainCatalog.reopened, Function.update (fun _ => []) "t" [], none⟩ := by
    rw [Relations.restart, show inserted.saved = some (Function.update (fun _ => []) "t" []) from
      Relations.mutate_saved _ _, show inserted.catalog = plainCatalog from Relations.mutate_catalog _ _]
    rfl
  have selected : ∀ r : Relations, (r.query { selectStar := true, fromTable := "t" }).2 = r := fun r => by
    rw [Relations.query]
    split <;> rfl
  have indexes : ∀ before, before <+: forgotten →
      (Machine.after Relations.live .nothing before).catalog.indexes = [] := by
    intro before isPrefix
    simp only [forgotten, List.prefix_cons_iff, List.prefix_nil] at isPrefix
    rcases isPrefix with rfl | ⟨_, rfl, rfl | ⟨_, rfl, rfl | ⟨_, rfl, rfl | ⟨_, rfl, rfl | ⟨_, rfl, rfl⟩⟩⟩⟩⟩
    · rfl
    · rfl
    · rfl
    · exact congrArg Catalog.indexes (Relations.mutate_catalog opened _)
    · show inserted.restart.catalog.indexes = []
      rw [restarted]
      rfl
    · show (inserted.restart.query _).2.catalog.indexes = []
      rw [restarted, selected]
      rfl
  obtain ⟨answered, -⟩ := sessions_outlive_processes forgotten "db"
    (by
      intro stmt isStmt
      simp only [forgotten, List.mem_cons, List.not_mem_nil, or_false, SessionEvent.statement.injEq, reduceCtorEq,
        false_or] at isStmt
      rcases isStmt with rfl | rfl | rfl | rfl
      · exact ⟨⟨by decide, List.cons_ne_nil _ _, by decide, by simp⟩, by simp [Statement.KeyReadable]⟩
      · exact ⟨trivial, trivial⟩
      · exact ⟨⟨by decide, List.cons_ne_nil _ _⟩, trivial⟩
      · exact ⟨⟨rfl, by simp, by decide, by simp, by simp⟩, trivial⟩)
    (by
      intro before isPrefix table isTable index onTable
      have isIndex := (Catalog.mem_indexesOnTable.mp onTable).1
      rw [indexes before isPrefix] at isIndex
      cases isIndex)
    (by
      intro before isPrefix
      simp only [forgotten, List.prefix_cons_iff, List.prefix_nil] at isPrefix
      rcases isPrefix with rfl | ⟨_, rfl, rfl | ⟨_, rfl, rfl | ⟨_, rfl, rfl | ⟨_, rfl, rfl | ⟨_, rfl, rfl⟩⟩⟩⟩⟩ <;>
        exact ⟨hasRoom_of_two rfl rfl fun _ => rfl, by decide, by decide⟩)
  have answers_eq : Machine.answers Relations.live .nothing forgotten =
      [some {}, some {}, (opened.mutate (.insert ⟨"t", [.integer 7]⟩)).1, some {},
        (inserted.restart.query { selectStar := true, fromTable := "t" }).1] := rfl
  have meaningful : SelectStatement.Meaningful plainCatalog.reopened { selectStar := true, fromTable := "t" } :=
    planSelect_meaningful.mp ⟨_, rfl⟩
  have nothingThere : naiveSelect plainCatalog.reopened
      (⟨plainCatalog.reopened, Function.update (fun _ => []) "t" [], none⟩ : Relations).contents
      { selectStar := true, fromTable := "t" } = [] := by decide
  rw [answers_eq, restarted, Relations.query, if_pos meaningful, nothingThere] at answered
  simp only [forgotten, Machine.answers, List.forall₂_cons] at answered
  obtain ⟨-, -, -, -, answer, -⟩ := answered
  simp only [forgotten, Machine.answers, List.getLast?_cons_cons, List.getLast?_singleton, Option.some.injEq]
  revert answer
  cases (SqlSession.live _ (.statement (.select _))).1 with
  | error e => exact False.elim
  | ok result => exact fun answer => ⟨result, rfl, List.Perm.eq_nil answer.1⟩

end FlintDB
