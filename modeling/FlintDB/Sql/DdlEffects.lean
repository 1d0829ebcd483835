import FlintDB.Sql.StatementEffects

set_option autoImplicit false

-- A new object under an id that no other object has, empty for a table, and for an index filled with one entry for
-- each row of its table.

namespace FlintDB

open Lib Fallible Database

namespace Catalog

variable {catalog : Catalog}

theorem heapObjectId_lt {table : TableInfo} (isTable : table ∈ catalog.tables) :
    table.heapObjectId < catalog.nextObjectId :=
  catalog.ids_lt _ (List.mem_append_left _ (List.mem_map_of_mem isTable))

theorem objectId_lt {index : IndexInfo} (isIndex : index ∈ catalog.indexes) : index.objectId < catalog.nextObjectId :=
  catalog.ids_lt _ (List.mem_append_right _ (List.mem_map_of_mem isIndex))

theorem tableName_mem {index : IndexInfo} (isIndex : index ∈ catalog.indexes) :
    index.tableName ∈ catalog.tables.map TableInfo.name := by
  obtain ⟨table, isTable, named, -⟩ := catalog.indexes_integer index isIndex
  exact named ▸ List.mem_map_of_mem isTable

end Catalog

namespace Lockstep

variable {catalog : Catalog} {objects : Nat → Option ObjectStorage} {contents : Contents}

theorem attach (lockstep : Lockstep catalog objects contents) {objectId : Nat} (unused : catalog.nextObjectId ≤ objectId)
    (storage : ObjectStorage) : Lockstep catalog (Function.update objects objectId (some storage)) contents := by
  refine ⟨fun table isTable => ?_, lockstep.storable, fun table isTable index onTable => ?_⟩
  · have older := Catalog.heapObjectId_lt isTable
    rw [Function.update_of_ne (by omega)]
    exact lockstep.heap table isTable
  · have older := Catalog.objectId_lt (Catalog.mem_indexesOnTable.mp onTable).1
    rw [Function.update_of_ne (by omega)]
    exact lockstep.index table isTable index onTable

theorem pushTable (lockstep : Lockstep catalog objects contents) {name : String} {columns : List ColumnDef}
    (primaryKeyColumn : Option String) (fresh : name ∉ catalog.tables.map TableInfo.name) (columns_ne : columns ≠ [])
    (columns_nodup : (columns.map ColumnDef.name).Nodup) :
    Lockstep (catalog.pushTable name columns primaryKeyColumn fresh columns_ne columns_nodup)
      (Function.update objects catalog.nextObjectId (some (.heap {}))) (Function.update contents name []) := by
  have attached := lockstep.attach (Nat.le_refl _) (.heap {})
  have otherName : ∀ table ∈ catalog.tables, table.name ≠ name := fun table isTable same =>
    fresh (same ▸ List.mem_map_of_mem isTable)
  refine ⟨fun table isTable => ?_, fun table isTable => ?_, fun table isTable index onTable => ?_⟩
  · rcases List.mem_append.mp isTable with older | newest
    · rw [Function.update_of_ne (otherName table older)]
      exact attached.heap table older
    · rw [List.mem_singleton.mp newest, Function.update_self, Function.update_self]
      exact ⟨{}, rfl, HeapFile.sound_empty, rfl⟩
  · rcases List.mem_append.mp isTable with older | newest
    · rw [Function.update_of_ne (otherName table older)]
      exact attached.storable table older
    · rw [List.mem_singleton.mp newest, Function.update_self]
      simp
  · obtain ⟨isIndex, named⟩ := Catalog.mem_indexesOnTable.mp onTable
    have isIndex : index ∈ catalog.indexes := isIndex
    rcases List.mem_append.mp isTable with older | newest
    · rw [Function.update_of_ne (otherName table older)]
      exact attached.index table older index (Catalog.mem_indexesOnTable.mpr ⟨isIndex, named⟩)
    · rw [List.mem_singleton.mp newest] at named
      exact absurd (Catalog.tableName_mem isIndex) (named ▸ fresh)

theorem pushIndex (lockstep : Lockstep catalog objects contents) {name tableName columnName : String}
    {isPrimaryKey : Bool} (integer : IndexInfo.OverInteger
      { name, tableName, columnName, objectId := catalog.nextObjectId, isPrimaryKey } catalog.tables)
    {tree : BPlusTree} (represents : ∀ table ∈ catalog.tables, table.name = tableName →
      tree.Represents (table.entries columnName (contents table.name))) :
    Lockstep (catalog.pushIndex name tableName columnName isPrimaryKey integer)
      (Function.update objects catalog.nextObjectId (some (.index tree))) contents := by
  have attached := lockstep.attach (Nat.le_refl _) (.index tree)
  refine ⟨attached.heap, attached.storable, fun table isTable index onTable => ?_⟩
  obtain ⟨isIndex, named⟩ := Catalog.mem_indexesOnTable.mp onTable
  rcases List.mem_append.mp isIndex with older | newest
  · exact attached.index table isTable index (Catalog.mem_indexesOnTable.mpr ⟨older, named⟩)
  · rw [List.mem_singleton.mp newest] at named ⊢
    exact ⟨tree, Function.update_self .., represents table isTable named.symm⟩

end Lockstep

namespace Database

variable {origin : Database} {contents : Contents}

theorem requireNoActiveTransaction_exec (inactive : origin.activeTxns = ∅) (statementKind : String) :
    (requireNoActiveTransaction statementKind).exec origin = (.ok (), origin) := by
  rw [requireNoActiveTransaction, exec_bind_ok (exec_get origin), if_pos inactive]
  rfl

theorem primaryKeyIndex_pushed (catalog : Catalog) {name indexName columnName : String}
    (fresh : ∀ index ∈ catalog.indexes, index.tableName ≠ name) (integer : IndexInfo.OverInteger
      { name := indexName, tableName := name, columnName, objectId := catalog.nextObjectId, isPrimaryKey := true }
      catalog.tables) :
    (catalog.pushIndex indexName name columnName true integer).primaryKeyIndex name =
      some { name := indexName, tableName := name, columnName, objectId := catalog.nextObjectId,
             isPrimaryKey := true } := by
  have none : (catalog.indexes.find? fun index => index.tableName = name && index.isPrimaryKey) = none :=
    List.find?_eq_none.mpr fun index isIndex => by simp [fresh index isIndex]
  simp [Catalog.primaryKeyIndex, Catalog.pushIndex, List.find?_append, none]

section CreateTable

variable {name : String} {columns : List ColumnDef} {primaryKeyColumn : Option String} {heapId : Nat} {after : Catalog}
  (created : origin.catalog.createTable name columns primaryKeyColumn = .ok (heapId, after))
include created

theorem createTable_exec (noKey : primaryKeyColumn = none) :
    (createTable name columns primaryKeyColumn).exec origin =
      (.ok heapId, { origin with
        catalog := after
        objects := Function.update origin.objects heapId (some (.heap {})) }) := by
  rw [createTable, exec_bind_ok (exec_get origin), created]
  subst noKey
  rfl

theorem createTable_exec_key {key : String} (keyed : primaryKeyColumn = some key) {index : IndexInfo}
    (isKey : after.primaryKeyIndex name = some index) :
    (createTable name columns primaryKeyColumn).exec origin =
      (.ok heapId, { origin with
        catalog := after
        objects := Function.update (Function.update origin.objects heapId (some (.heap {}))) index.objectId
          (some (.index {})) }) := by
  rw [createTable, exec_bind_ok (exec_get origin), created]
  subst keyed
  rw [exec_bind_ok (exec_liftM _ origin), exec_bind_ok (exec_set origin _)]
  simp only [Option.isSome_some, if_true, isKey]
  rfl

end CreateTable

theorem executeCreateTable_settles (stmt : CreateTableStatement) (inactive : origin.activeTxns = ∅)
    (lockstep : Lockstep origin.catalog origin.objects contents) :
    Meets (· = origin) (executeCreateTable stmt) (fun _ db => ∃ heapId after,
      origin.catalog.createTable stmt.tableName stmt.columns stmt.primaryKeyColumn = .ok (heapId, after) ∧
      db = { origin with catalog := after, objects := db.objects } ∧
      Lockstep after db.objects (Function.update contents stmt.tableName []))
      (· = origin) := by
  rintro db rfl
  rw [executeCreateTable, exec_bind_ok (requireNoActiveTransaction_exec inactive _)]
  cases created : db.catalog.createTable stmt.tableName stmt.columns stmt.primaryKeyColumn with
  | error e =>
    have fails : (createTable stmt.tableName stmt.columns stmt.primaryKeyColumn).exec db = (.error e, db) := by
      rw [createTable, exec_bind_ok (exec_get db), created]
      rfl
    rw [exec_bind_error fails]
  | ok result =>
    obtain ⟨heapId, after⟩ := result
    obtain ⟨rfl, fresh, columns_ne, columns_nodup, pushed⟩ := Catalog.createTable_ok created
    have grown := lockstep.pushTable stmt.primaryKeyColumn fresh columns_ne columns_nodup
    rcases pushed with ⟨noKey, rfl⟩ | ⟨key, integer, keyed, rfl⟩
    · rw [exec_bind_ok (createTable_exec created noKey)]
      exact ⟨_, _, rfl, rfl, grown⟩
    · have elsewhere : ∀ index ∈ db.catalog.indexes, index.tableName ≠ stmt.tableName := fun index isIndex same =>
        fresh (same ▸ Catalog.tableName_mem isIndex)
      have isKey := primaryKeyIndex_pushed (db.catalog.pushTable ..) elsewhere integer
      rw [exec_bind_ok (createTable_exec_key created keyed isKey)]
      refine ⟨_, _, rfl, rfl, grown.pushIndex integer fun table _ named => ?_⟩
      rw [named, Function.update_self]
      exact BPlusTree.represents_empty

def Backfilling (start : Database) (objectId : Nat) (few : Prop) (entries : List (Int × RID)) (db : Database) : Prop :=
  ∃ tree, db = start.attach objectId (.index tree) ∧ tree.LeavesFit ∧
    (few → tree.allocated < invalidPageId → tree.Represents entries)

def BackfillFailed (start : Database) (objectId : Nat) (few : Prop) (db : Database) : Prop :=
  ∃ tree, db = start.attach objectId (.index tree) ∧ tree.LeavesFit ∧ (few → ¬ tree.allocated < invalidPageId)

section Backfill

variable {start : Database} {objectId : Nat} {few : Prop} (idle : start.currentTransaction = none)
include idle

theorem indexInsert_backfilling {entries : List (Int × RID)} {key : Int} (rid : RID)
    (room : few → (entries.map Prod.fst).count key < kLeafMaxKeys) :
    Meets (Backfilling start objectId few entries) (indexInsert objectId key rid)
      (fun _ => Backfilling start objectId few ((key, rid) :: entries)) (BackfillFailed start objectId few) := by
  rintro db ⟨tree, rfl, fits, represents⟩
  have found : (getIndex objectId).exec (start.attach objectId (.index tree)) =
      (.ok tree, start.attach objectId (.index tree)) := by
    rw [getIndex, exec_bind_ok (exec_get _), attach_objects, Function.update_self]
    rfl
  have stillIdle : (start.attach objectId (.index tree)).currentTransaction = none := idle
  have unlocked := lockPage_none stillIdle objectId kRootHeaderPageId .kExclusive
  rw [indexInsert, modifyIndex, exec_bind_ok unlocked, exec_bind_ok found]
  cases inserted : (BPlusTree.insert key rid).exec tree with
  | mk outcome tree' =>
    have neverShrinks := BPlusTree.insert_keeps key rid tree (Nat.le_refl tree.allocated)
    have staysFit := BPlusTree.insert_fits key rid tree fits
    rw [inserted] at neverShrinks staysFit
    simp only
    rw [exec_bind_ok (exec_modify _ _)]
    have again : (start.attach objectId (.index tree)).attach objectId (.index tree') =
        start.attach objectId (.index tree') := by
      simp [attach]
    rw [again]
    cases outcome with
    | ok _ =>
      refine ⟨tree', rfl, staysFit, fun isFew below => ?_⟩
      obtain ⟨after, returns, -, stores⟩ := BPlusTree.insert_exec
        (represents isFew (Nat.lt_of_le_of_lt neverShrinks below)) rid (room isFew)
      cases inserted.symm.trans returns
      exact stores below
    | error e =>
      have stopped : BackfillFailed start objectId few (start.attach objectId (.index tree')) := by
        refine ⟨tree', rfl, staysFit, fun isFew below => ?_⟩
        obtain ⟨after, returns, -⟩ := BPlusTree.insert_exec
          (represents isFew (Nat.lt_of_le_of_lt neverShrinks below)) rid (room isFew)
        cases inserted.symm.trans returns
      cases e <;> exact stopped

omit idle in
theorem Backfilling.perm {entries entries' : List (Int × RID)} {db : Database}
    (backfilling : Backfilling start objectId few entries db) (same : entries.Perm entries') :
    Backfilling start objectId few entries' db := by
  obtain ⟨tree, rfl, fits, represents⟩ := backfilling
  exact ⟨tree, rfl, fits, fun isFew below => (represents isFew below).perm same⟩

theorem backfillRows_backfilling {table : TableInfo} {columnName : String} {column : ColumnDef} {columnIdx : Nat}
    (isColumn : table.findColumn columnName = some column) (indexed : columnIndex table columnName = .ok columnIdx)
    {rows : List (RID × List LiteralValue)} (storable : ∀ row ∈ rows, table.Storable row.2)
    (keys : few → ∀ key, ((table.entries columnName rows).map Prod.fst).count key ≤ kLeafMaxKeys) :
    Meets (Backfilling start objectId few [])
      ((rows.map table.encode).forM (executeCreateIndex.backfill table columnIdx objectId))
      (fun _ => Backfilling start objectId few (table.entries columnName rows))
      (BackfillFailed start objectId few) := by
  let reached (done : List (RID × List LiteralValue)) : Database → Prop :=
    Backfilling start objectId few (table.entries columnName done)
  show Meets (reached []) _ (fun _ => reached rows) _
  refine Meets.forM_view table.encode reached fun done row rest split => ?_
  have here : table.Storable row.2 := storable row (by simp [split])
  obtain ⟨idx, value, indexed', at_idx, valueAt_eq, -⟩ := here.row.valueAt isColumn
  cases indexed.symm.trans indexed'
  have keyed : table.keyAt columnName row.2 = some value.key := by rw [TableInfo.keyAt, valueAt_eq, Option.map_some]
  have before : few → ((table.entries columnName done).map Prod.fst).count value.key < kLeafMaxKeys := by
    intro isFew
    have atMost := keys isFew value.key
    have parts : table.entries columnName rows = table.entries columnName done ++
        (table.entries columnName [row] ++ table.entries columnName rest) := by
      rw [split, List.append_cons, ← TableInfo.entries_append, ← TableInfo.entries_append, List.append_assoc]
    rw [parts, TableInfo.entries_singleton keyed] at atMost
    simp only [List.map_append, List.count_append, List.map_cons, List.map_nil, List.count_singleton_self] at atMost
    omega
  rw [executeCreateIndex.backfill, TableInfo.encode, here.decode]
  refine Meets.ok_bind ?_
  rw [at_idx]
  refine Meets.ok_bind ((indexInsert_backfilling idle row.1 before).of_post fun _ db backfilling => ?_)
  refine backfilling.perm ?_
  rw [TableInfo.entries_append, TableInfo.entries_singleton keyed]
  exact (List.perm_append_singleton _ _).symm

end Backfill

theorem heapScan_idle {db : Database} (idle : db.currentTransaction = none) {objectId : Nat} {file : HeapFile}
    (present : db.objects objectId = some (.heap file)) : (heapScan objectId).exec db = (.ok file.rows, db) := by
  have found : Yields (· = db) (getHeapFile objectId) file := by
    rintro s rfl
    refine ⟨s, ?_, rfl⟩
    rw [getHeapFile, exec_bind_ok (exec_get s), present]
    rfl
  have unlocked : ∀ pageId, Yields (· = db) (lockPage objectId pageId .kShared) () := by
    rintro pageId s rfl
    exact ⟨s, lockPage_none idle objectId pageId .kShared, rfl⟩
  have scanned : Yields (· = db) (heapScan objectId) file.rows :=
    Yields.bind found (Yields.collect fun pageId _ =>
      Yields.bind (unlocked pageId) (Yields.bind found (Yields.pure _)))
  obtain ⟨after, returns, same⟩ := scanned db rfl
  rw [returns, same]

theorem populate_exec {db : Database} (idle : db.currentTransaction = none) {stmt : CreateIndexStatement}
    {table : TableInfo} (found : db.catalog.findTable stmt.tableName = some table) {columnIdx : Nat}
    (indexed : columnIndex table stmt.columnName = .ok columnIdx) {file : HeapFile}
    (present : db.objects table.heapObjectId = some (.heap file)) (objectId : Nat) :
    (executeCreateIndex.populate stmt objectId).exec db =
      (file.rows.forM (executeCreateIndex.backfill table columnIdx objectId)).exec db := by
  have looked : (heapFileForTable stmt.tableName).exec db = (.ok table.heapObjectId, db) := by
    rw [heapFileForTable, exec_bind_ok (exec_get db), found]
    rfl
  rw [executeCreateIndex.populate, exec_bind_ok (exec_get db), found, orUndefined, exec_bind_ok (exec_liftM _ db),
    indexed, exec_bind_ok (exec_liftM _ db), exec_bind_ok looked, exec_bind_ok (heapScan_idle idle present)]

theorem executeCreateIndex_refused {stmt : CreateIndexStatement} (inactive : origin.activeTxns = ∅) {e : Exception}
    (refused : origin.catalog.createIndex stmt.indexName stmt.tableName stmt.columnName = .error e) :
    (executeCreateIndex stmt).exec origin = (.error e, origin) := by
  rw [executeCreateIndex, exec_bind_ok (requireNoActiveTransaction_exec inactive _), createIndex, bind_assoc,
    exec_bind_ok (exec_get origin), refused]
  rfl

theorem executeCreateIndex_settles (stmt : CreateIndexStatement) (inactive : origin.activeTxns = ∅)
    (idle : origin.currentTransaction = none) (lockstep : Lockstep origin.catalog origin.objects contents)
    {objectId : Nat} {after : Catalog} {table : TableInfo}
    (created : origin.catalog.createIndex stmt.indexName stmt.tableName stmt.columnName = .ok (objectId, after))
    (found : origin.catalog.findTable stmt.tableName = some table) {few : Prop}
    (keys : few → ∀ key, ((table.entries stmt.columnName (contents table.name)).map Prod.fst).count key ≤ kLeafMaxKeys) :
    Meets (· = origin) (executeCreateIndex stmt)
      (fun _ => Backfilling { origin with catalog := after } objectId few
        (table.entries stmt.columnName (contents table.name)))
      (BackfillFailed { origin with catalog := after } objectId few) := by
  obtain ⟨rfl, -, table', column, integer, found', isColumn, rfl⟩ := Catalog.createIndex_ok created
  cases found.symm.trans found'
  obtain ⟨isTable, named⟩ := Catalog.findTable_eq_some.mp found
  obtain ⟨columnIdx, indexed, -, -⟩ := columnIndex_of_findColumn isColumn
  obtain ⟨file, present, -, rows_eq⟩ := lockstep.heap table isTable
  have presentThere : Function.update origin.objects origin.catalog.nextObjectId (some (.index {})) table.heapObjectId =
      some (.heap file) := by
    have older := Catalog.heapObjectId_lt isTable
    rw [Function.update_of_ne (by omega)]
    exact present
  rintro db rfl
  rw [executeCreateIndex, exec_bind_ok (requireNoActiveTransaction_exec inactive _), createIndex, bind_assoc,
    exec_bind_ok (exec_get db), created]
  simp only [bind_assoc]
  rw [exec_bind_ok (exec_liftM _ db), exec_bind_ok (exec_set db _)]
  let start : Database := { db with
    catalog := db.catalog.pushIndex stmt.indexName stmt.tableName stmt.columnName false integer }
  let fresh : Database := start.attach db.catalog.nextObjectId (.index {})
  have startIdle : start.currentTransaction = none := idle
  have freshIdle : fresh.currentTransaction = none := idle
  have begun : Backfilling start db.catalog.nextObjectId few [] fresh :=
    ⟨{}, rfl, BPlusTree.leavesFit_empty, fun _ _ => BPlusTree.represents_empty⟩
  have populated : Meets (· = fresh) (executeCreateIndex.populate stmt db.catalog.nextObjectId)
      (fun _ => Backfilling start db.catalog.nextObjectId few (table.entries stmt.columnName (contents table.name)))
      (BackfillFailed start db.catalog.nextObjectId few) := by
    rintro s rfl
    rw [populate_exec freshIdle found indexed presentThere, rows_eq]
    exact backfillRows_backfilling startIdle isColumn indexed (lockstep.storable table isTable) keys fresh begun
  have returned : Meets (· = fresh) (executeCreateIndex.populate stmt db.catalog.nextObjectId >>= fun _ =>
      pure ({} : ExecuteResult))
      (fun _ => Backfilling start db.catalog.nextObjectId few (table.entries stmt.columnName (contents table.name)))
      (BackfillFailed start db.catalog.nextObjectId few) :=
    Meets.bind populated fun _ => Meets.pure _ fun _ backfilled => backfilled
  exact returned fresh rfl

end Database

end FlintDB
