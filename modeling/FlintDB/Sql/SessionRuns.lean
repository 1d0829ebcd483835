import FlintDB.Sql.Mutations

set_option autoImplicit false

-- Between two statements of a session that is alone and has no transaction open, every index has the entries of the
-- rows of its table, as long as no statement has left a value too often in an indexed column.

namespace FlintDB

open Lib Fallible Database

inductive TableStatement
  | createTable (stmt : CreateTableStatement)
  | createIndex (stmt : CreateIndexStatement)
  | mutation (m : Mutation)

namespace TableStatement

def statement : TableStatement → Statement
  | createTable stmt => .createTable stmt
  | createIndex stmt => .createIndex stmt
  | mutation (.insert stmt) => .insert stmt
  | mutation (.delete stmt) => .delete stmt
  | mutation (.update stmt) => .update stmt

/-- New objects get names that the parser lets through. -/
def Named : TableStatement → Prop
  | createTable stmt => IsIdentifier stmt.tableName
  | createIndex stmt => IsIdentifier stmt.indexName
  | mutation _ => True

end TableStatement

/-- The rows that Scan returns from the heap of a table, decoded. -/
def Database.contents (db : Database) : Contents := fun tableName =>
  match db.catalog.findTable tableName with
  | none => []
  | some table =>
    match db.objects table.heapObjectId with
    | some (.heap file) => file.rows.filterMap fun row =>
        (decodeRow table.columns row.2).toOption.map fun values => (row.1, values)
    | _ => []

/-- Every index of every table and the heap of the table say the same. -/
structure Database.InStep (db : Database) : Prop where
  decodes : ∀ table ∈ db.catalog.tables, ∃ file, db.objects table.heapObjectId = some (.heap file) ∧
    ∀ row ∈ file.rows, ∃ values, decodeRow table.columns row.2 = .ok values
  -- what Search finds under all the keys
  entries : ∀ table ∈ db.catalog.tables, ∀ index ∈ db.catalog.indexesOnTable table.name, ∃ tree,
    db.objects index.objectId = some (.index tree) ∧ ∀ key, ∃ rids, tree.search key = .ok rids ∧
      rids.Perm (((db.contents table.name).filter fun row =>
        table.keyAt index.columnName row.2 = some key).map Prod.fst)
  -- a scan and an access through an index let the same rows through, and no RID is without a row
  accesses : ∀ tableName predicates access, planTableAccess db.catalog tableName predicates = .ok access →
    ∃ (table : TableInfo) (candidates : List (RID × List LiteralValue)) (after : Database),
      db.catalog.findTable tableName = some table ∧
      (fetchCandidateRows access).exec db = (.ok (candidates.map table.encode), after) ∧
      (candidates.filter fun row => access.residualPredicates.all (·.passes table row.2)).Perm
        ((db.contents tableName).filter fun row => predicates.all (·.passes table row.2))

/-- The statement, if it is accepted, leaves no value more often in an indexed column than a leaf has room for. -/
def TableStatement.WithinLimits (db : Database) : TableStatement → Prop
  | createTable _ => True
  | createIndex stmt =>
    (∃ created, db.catalog.createIndex stmt.indexName stmt.tableName stmt.columnName = .ok created) →
      ∀ table, db.catalog.findTable stmt.tableName = some table → ∀ key,
        keyCount table stmt.columnName key ((db.contents table.name).map Prod.snd) ≤ kLeafMaxKeys
  | mutation m => ¬ m.Rejected db.catalog db.contents →
      ∀ table, db.catalog.findTable m.tableName = some table →
      ∀ index ∈ db.catalog.indexesOnTable table.name, ∀ key,
        keyCount table index.columnName key (m.result table ((db.contents table.name).map Prod.snd)) ≤ kLeafMaxKeys

namespace SqlSession

def run (session : SqlSession) (stmts : List TableStatement) : SqlSession :=
  stmts.foldl (fun session stmt => ((execute stmt.statement).exec session).2) session

theorem run_snoc (session : SqlSession) (stmts : List TableStatement) (stmt : TableStatement) :
    session.run (stmts ++ [stmt]) = ((execute stmt.statement).exec (session.run stmts)).2 :=
  List.foldl_append ..

structure Between (session : SqlSession) : Prop where
  alone : session.db.Alone
  idle : session.db.currentTransaction = none
  inactive : session.db.activeTxns = ∅
  built : session.db.catalog.Built
  -- nothing is in the pools that is not in the files
  flushed : session.files = session.db.objects
  lockstep : Lockstep session.db.catalog session.db.objects session.db.contents
  unique : ∀ table ∈ session.db.catalog.tables, table.KeysUnique ((session.db.contents table.name).map Prod.snd)

end SqlSession

namespace Database

variable {db : Database} {contents : Contents}

theorem contents_eq (lockstep : Lockstep db.catalog db.objects contents) {table : TableInfo}
    (isTable : table ∈ db.catalog.tables) : db.contents table.name = contents table.name := by
  obtain ⟨file, present, -, rows_eq⟩ := lockstep.heap table isTable
  have found : db.catalog.findTable table.name = some table := Catalog.findTable_eq_some.mpr ⟨isTable, rfl⟩
  simp only [Database.contents, found, present, rows_eq, List.filterMap_map]
  have reads : ∀ row ∈ contents table.name, (some row : Option (RID × List LiteralValue)) = ((fun row =>
      (decodeRow table.columns row.2).toOption.map fun values => (row.1, values)) ∘ table.encode) row := by
    intro row isRow
    simp [TableInfo.encode, (lockstep.storable table isTable row isRow).decode, Except.toOption]
  rw [← List.filterMap_congr reads, List.filterMap_some]

theorem lockstep_contents (lockstep : Lockstep db.catalog db.objects contents) :
    Lockstep db.catalog db.objects db.contents := by
  refine ⟨fun table isTable => ?_, fun table isTable => ?_, fun table isTable => ?_⟩
  · rw [contents_eq lockstep isTable]
    exact lockstep.heap table isTable
  · rw [contents_eq lockstep isTable]
    exact lockstep.storable table isTable
  · rw [contents_eq lockstep isTable]
    exact lockstep.index table isTable

end Database

theorem SqlSession.Between.inStep {session : SqlSession} (between : session.Between) : session.db.InStep := by
  have lockstep := between.lockstep
  refine ⟨fun table isTable => ?_, fun table isTable index onTable => ?_, fun tableName predicates access planned => ?_⟩
  · obtain ⟨file, present, -, rows_eq⟩ := lockstep.heap table isTable
    refine ⟨file, present, fun row isRow => ?_⟩
    rw [rows_eq] at isRow
    obtain ⟨row, isStored, rfl⟩ := List.mem_map.mp isRow
    exact ⟨row.2, (lockstep.storable table isTable row isStored).decode⟩
  · obtain ⟨tree, present, represents⟩ := lockstep.index table isTable index onTable
    refine ⟨tree, present, fun key => ?_⟩
    obtain ⟨rids, found, perm⟩ := represents.search key
    rw [TableInfo.entries_filter] at perm
    exact ⟨rids, found, perm⟩
  · obtain ⟨table, candidates, found, -, -, yields, delivers⟩ := fetchCandidateRows_yields (fun _ _ => False)
      lockstep.stores (lockstep.indexes between.built.keyed.distinct) planned
    obtain ⟨after, fetched, -⟩ := yields session.db (still_of_alone between.alone).shows
    have named := (Catalog.findTable_eq_some.mp found).2
    exact ⟨table, candidates, after, found, fetched, named ▸ delivers.filtered⟩

namespace SqlSession

theorem revertObject_self (storage : Option ObjectStorage) : revertObject storage storage = storage := by
  match storage with
  | none => rfl
  | some (.heap file) => rfl
  | some (.index tree) =>
    have pages : (fun pageId => if tree.allocated ≤ pageId ∧ pageId < tree.allocated then some BPlusTree.zeroNode
        else tree.pages pageId) = tree.pages := funext fun pageId => if_neg fun both => Nat.not_lt.mpr both.1 both.2
    rw [revertObject, ObjectStorage.revert, BPlusTree.revert, pages]

theorem hasRoom_of_reverted {files : Nat → Option ObjectStorage} {db reverted : Database}
    (extended : ∀ objectId, ObjectStorage.Extends (files objectId) (db.objects objectId))
    (reverts : reverted.objects = fun objectId => revertObject (files objectId) (db.objects objectId))
    (room : reverted.HasRoom) : db.HasRoom := by
  refine ⟨fun objectId file present => ?_, fun objectId tree present => ?_⟩
  · have grown := extended objectId
    have here := congrFun reverts objectId
    rw [present] at grown here
    cases start : files objectId with
    | none => exact room.heap objectId file (by rw [here, start]; rfl)
    | some storage =>
      rw [start] at grown here
      cases storage with
      | heap first => exact room.heap objectId (first.revert file) here
      | index first => exact grown.elim
  · have grown := extended objectId
    have here := congrFun reverts objectId
    rw [present] at grown here
    cases start : files objectId with
    | none => exact room.index objectId tree (by rw [here, start]; rfl)
    | some storage =>
      rw [start] at grown here
      cases storage with
      | heap first => exact grown.elim
      | index first => exact room.index objectId (first.revert tree) here

def begun (db : Database) : Database :=
  { db with
    currentTransaction := some db.nextTxnId
    activeTxns := insert db.nextTxnId db.activeTxns
    nextTxnId := db.nextTxnId + 1 }

theorem executeAutocommit_exec {session : SqlSession} (idle : session.db.currentTransaction = none)
    (program : DatabaseM ExecuteResult) : (executeAutocommit program).exec session =
      match program.exec (begun session.db) with
      | (.ok result, db) => (.ok result, { db := finish db session.db.nextTxnId, files := db.objects })
      | (.error e, db) => (.error e, { session with
          db := finish { db with
            objects := fun objectId => revertObject (session.files objectId) (db.objects objectId) }
              session.db.nextTxnId }) := by
  have begins : beginTransaction.exec session = (.ok session.db.nextTxnId, { session with db := begun session.db }) := by
    rw [beginTransaction, exec_bind_ok (exec_get session), idle]
    rfl
  rw [executeAutocommit, exec_bind_ok (exec_get session), idle]
  simp only
  rw [exec_bind_ok begins, exec_tryCatch]
  have ran : (onDatabase program).exec { session with db := begun session.db } =
      ((program.exec (begun session.db)).1, { session with db := (program.exec (begun session.db)).2 }) := rfl
  cases done : program.exec (begun session.db) with
  | mk outcome db =>
    rw [done] at ran
    cases outcome with
    | ok result =>
      rw [exec_bind_ok ran]
      rfl
    | error e =>
      rw [exec_bind_error ran]
      rfl

theorem executeDdl_exec (session : SqlSession) (program : DatabaseM ExecuteResult) :
    (executeDdl program).exec session =
      match program.exec session.db with
      | (.ok result, db) => (.ok result, { db := db, files := db.objects })
      | (.error e, db) => (.error e,
          { db := db, files := fun objectId => orUnflushed (session.files objectId) (db.objects objectId) }) := by
  rw [executeDdl, exec_tryCatch]
  have ran : (onDatabase program).exec session =
      ((program.exec session.db).1, { session with db := (program.exec session.db).2 }) := rfl
  cases done : program.exec session.db with
  | mk outcome db =>
    rw [done] at ran
    cases outcome with
    | ok result =>
      rw [exec_bind_ok ran]
      rfl
    | error e =>
      rw [exec_bind_error ran]
      rfl

namespace Between

variable {session : SqlSession}

theorem begun_alone (between : session.Between) : (begun session.db).Alone :=
  ⟨between.alone.still, between.alone.consistent, fun other key held => by
    cases between.idle.symm.trans (between.alone.own other key held)⟩

theorem finished (between : session.Between) {db : Database} (extended : (begun session.db).Extended db)
    {contents : Contents} {objects : Nat → Option ObjectStorage} (lockstep : Lockstep session.db.catalog objects contents)
    (unique : ∀ table ∈ session.db.catalog.tables, table.KeysUnique ((contents table.name).map Prod.snd)) :
    Between { db := finish { db with objects := objects } session.db.nextTxnId, files := objects } := by
  have catalog_eq : db.catalog = session.db.catalog := extended.frame.catalog_eq
  have lockstep : Lockstep db.catalog objects contents := catalog_eq ▸ lockstep
  refine ⟨⟨extended.alone.still, LockManager.consistent_releaseAll extended.alone.consistent, fun other key held => ?_⟩,
    rfl, ?_, catalog_eq ▸ between.built, rfl, lockstep_contents lockstep, fun table isTable => ?_⟩
  · obtain ⟨different, before⟩ := (LockManager.holds_releaseAll extended.alone.consistent other key).mp held
    have own := (extended.alone.own other key before).symm.trans extended.frame.currentTransaction_eq
    exact absurd (Option.some.inj own) different
  · show db.activeTxns.erase session.db.nextTxnId = ∅
    rw [extended.frame.activeTxns_eq, begun, between.inactive]
    simp
  · rw [contents_eq lockstep isTable]
    exact unique table (catalog_eq ▸ isTable)

theorem unchanged (between : session.Between) {db : Database} (still : (begun session.db).Still db) :
    (fun objectId => revertObject (session.files objectId) (db.objects objectId)) = session.db.objects ∧
    Between { session with db := finish { db with
      objects := fun objectId => revertObject (session.files objectId) (db.objects objectId) } session.db.nextTxnId } := by
  have reverted : (fun objectId => revertObject (session.files objectId) (db.objects objectId)) = session.files := by
    funext objectId
    rw [still.objects_eq, between.flushed]
    exact revertObject_self _
  rw [reverted]
  exact ⟨between.flushed, between.finished still.extended (between.flushed ▸ between.lockstep) between.unique⟩

theorem mutation_effect (between : session.Between) (m : Mutation)
    (limits : (TableStatement.mutation m).WithinLimits session.db)
    (room : ((executeAutocommit m.execute).exec session).2.db.HasRoom) :
    Between ((executeAutocommit m.execute).exec session).2 ∧
      ((executeAutocommit m.execute).exec session).2.db.catalog = session.db.catalog ∧
      (¬ m.Rejected session.db.catalog session.db.contents → ∀ table,
        session.db.catalog.findTable m.tableName = some table →
        ((((executeAutocommit m.execute).exec session).2.db.contents table.name).map Prod.snd).Perm
          (m.result table ((session.db.contents table.name).map Prod.snd))) := by
  have alone := between.begun_alone
  have lockstep : Lockstep (begun session.db).catalog (begun session.db).objects session.db.contents := between.lockstep
  rw [executeAutocommit_exec between.idle] at room ⊢
  cases found : session.db.catalog.findTable m.tableName with
  | none =>
    obtain ⟨e, fails⟩ := @Mutation.execute_unknown (begun session.db) m found
    rw [fails]
    exact ⟨(between.unchanged (still_of_alone alone)).2, rfl, fun accepted => absurd (.inl found) accepted⟩
  | some table =>
    obtain ⟨isTable, -⟩ := Catalog.findTable_eq_some.mp found
    have spec : m.Spec (begun session.db) session.db.contents table :=
      @Mutation.execute_relational (begun session.db) _ _ between.built.keyed lockstep alone between.unique m found
    have ends := spec _ rfl
    revert room ends
    cases m.execute.exec (begun session.db) with
    | mk outcome db =>
      cases outcome with
      | error e =>
        rintro room (⟨rejected, still⟩ | ⟨accepted, cramped⟩)
        · exact ⟨(between.unchanged still).2, still.frame.catalog_eq, fun accepted => absurd rejected accepted⟩
        · refine absurd (hasRoom_of_reverted cramped.extended.objects ?_ room) (cramped.cramped fun index _ onTable key => ?_)
          · rw [between.flushed]
            rfl
          · exact limits accepted table found index onTable key
      | ok result =>
        rintro room ⟨accepted, rows, perm, -, settles⟩
        have few : ∀ index, FewKeys session.db.catalog table (rows.map Prod.snd) index := fun index =>
          FewKeys.perm (fun onTable key => limits accepted table found index onTable key) perm.symm
        have settled := settles.lockstep (fewRepeated_update lockstep isTable few) ⟨room.heap, room.index⟩
        have after := between.finished settles.agrees.extended settled
          (Mutation.keysUnique_after found accepted between.unique perm)
        have catalog_eq : db.catalog = session.db.catalog := settles.agrees.extended.frame.catalog_eq
        refine ⟨after, catalog_eq, fun _ other isOther => ?_⟩
        cases Option.some.inj isOther
        have lockstepAfter : Lockstep (finish db session.db.nextTxnId).catalog (finish db session.db.nextTxnId).objects
            (Function.update session.db.contents table.name rows) := by
          rw [show (finish db session.db.nextTxnId).catalog = session.db.catalog from catalog_eq]
          exact settled
        have isThere : table ∈ (finish db session.db.nextTxnId).catalog.tables :=
          show table ∈ db.catalog.tables from catalog_eq ▸ isTable
        rw [contents_eq lockstepAfter isThere, Function.update_self]
        exact perm

theorem orUnflushed_self (storage : Option ObjectStorage) : orUnflushed storage storage = storage := by
  cases storage <;> rfl

theorem nothing_done (between : session.Between) : Between
    { session with files := fun objectId => orUnflushed (session.files objectId) (session.db.objects objectId) } := by
  have kept : (fun objectId => orUnflushed (session.files objectId) (session.db.objects objectId)) =
      session.db.objects := by
    funext objectId
    rw [between.flushed]
    exact orUnflushed_self _
  rw [kept]
  exact ⟨between.alone, between.idle, between.inactive, between.built, rfl, between.lockstep, between.unique⟩

theorem defined (between : session.Between) {after : Catalog} (built : after.Built)
    {objects : Nat → Option ObjectStorage} {contents : Contents} (lockstep : Lockstep after objects contents)
    (unique : ∀ table ∈ after.tables, table.KeysUnique ((contents table.name).map Prod.snd)) :
    Between { db := { session.db with catalog := after, objects := objects }, files := objects } := by
  let db : Database := { session.db with catalog := after, objects := objects }
  have lockstep : Lockstep db.catalog db.objects contents := lockstep
  refine ⟨⟨between.alone.still, between.alone.consistent, between.alone.own⟩, between.idle, between.inactive, built, rfl,
    lockstep_contents lockstep, fun table isTable => ?_⟩
  have same : db.contents table.name = contents table.name := contents_eq lockstep isTable
  show table.KeysUnique ((db.contents table.name).map Prod.snd)
  rw [same]
  exact unique table isTable

theorem createTable (between : session.Between) (stmt : CreateTableStatement) (isName : IsIdentifier stmt.tableName) :
    Between ((executeDdl (executeCreateTable stmt)).exec session).2 := by
  have ends := executeCreateTable_settles stmt between.inactive between.lockstep session.db rfl
  rw [executeDdl_exec]
  revert ends
  cases (executeCreateTable stmt).exec session.db with
  | mk outcome db =>
    cases outcome with
    | error e =>
      rintro rfl
      exact between.nothing_done
    | ok result =>
      rintro ⟨heapId, after, created, db_eq, lockstep⟩
      have defined := between.defined (.createTable between.built isName created) lockstep fun table isTable => ?_
      · show Between { db := db, files := db.objects }
        rwa [← db_eq] at defined
      · by_cases newest : table.name = stmt.tableName
        · rw [newest, Function.update_self]
          exact fun _ _ => List.nodup_nil
        · rw [Function.update_of_ne newest]
          refine between.unique table ?_
          obtain ⟨-, fresh, columns_ne, columns_nodup, pushed⟩ := Catalog.createTable_ok created
          rcases pushed with ⟨-, rfl⟩ | ⟨key, integer, -, rfl⟩ <;>
          · refine (List.mem_append.mp isTable).resolve_right fun isNew => newest ?_
            rw [List.mem_singleton.mp isNew]

theorem createIndex (between : session.Between) (stmt : CreateIndexStatement) (isName : IsIdentifier stmt.indexName)
    (limits : (TableStatement.createIndex stmt).WithinLimits session.db)
    (room : ((executeDdl (executeCreateIndex stmt)).exec session).2.db.HasRoom) :
    Between ((executeDdl (executeCreateIndex stmt)).exec session).2 := by
  rw [executeDdl_exec] at room ⊢
  cases created : session.db.catalog.createIndex stmt.indexName stmt.tableName stmt.columnName with
  | error e =>
    rw [executeCreateIndex_refused between.inactive created]
    exact between.nothing_done
  | ok new =>
    obtain ⟨objectId, after⟩ := new
    obtain ⟨objectId_eq, -, table, column, integer, found, isColumn, after_eq⟩ := Catalog.createIndex_ok created
    obtain ⟨isTable, named⟩ := Catalog.findTable_eq_some.mp found
    have few : True → ∀ key, ((table.entries stmt.columnName (session.db.contents table.name)).map Prod.fst).count key ≤
        kLeafMaxKeys := fun _ key => by
      rw [TableInfo.keys_entries]
      exact limits ⟨_, created⟩ table found key
    have ends := executeCreateIndex_settles stmt between.inactive between.idle between.lockstep created found few
      session.db rfl
    revert room ends
    cases (executeCreateIndex stmt).exec session.db with
    | mk outcome db =>
      cases outcome with
      | error e =>
        rintro room ⟨tree, rfl, -, full⟩
        exact absurd (room.index objectId tree (by simp)) (full trivial)
      | ok result =>
        rintro room ⟨tree, rfl, -, represents⟩
        have here := represents trivial (room.index objectId tree (by simp))
        have pushed : Lockstep after (Function.update session.db.objects objectId (some (.index tree)))
            session.db.contents := by
          subst objectId_eq after_eq
          refine between.lockstep.pushIndex integer fun other isOther same => ?_
          have isThis : other = table :=
            List.inj_on_of_nodup_map session.db.catalog.names_nodup isOther isTable (same.trans named.symm)
          rw [isThis]
          exact here
        have unique : ∀ table ∈ after.tables, table.KeysUnique ((session.db.contents table.name).map Prod.snd) := by
          rw [after_eq]
          exact between.unique
        exact between.defined (.createIndex between.built isName created) pushed unique

theorem start : Between {} := by
  refine ⟨⟨rfl, LockManager.consistent_empty, fun other key held => ?_⟩, rfl, rfl, .empty, rfl,
    ⟨by simp, by simp, by simp⟩, by simp⟩
  simp [LockManager.Holds, LockManager.HoldsExclusive, LockManager.HoldsShared] at held

theorem step (between : session.Between) {stmt : TableStatement} (named : stmt.Named)
    (limits : stmt.WithinLimits session.db) (room : ((execute stmt.statement).exec session).2.db.HasRoom) :
    Between ((execute stmt.statement).exec session).2 := by
  cases stmt with
  | createTable stmt => exact between.createTable stmt named
  | createIndex stmt => exact between.createIndex stmt named limits room
  | mutation m => cases m <;> exact (between.mutation_effect _ limits room).1

end Between

theorem run_between (stmts : List TableStatement) (named : ∀ stmt ∈ stmts, stmt.Named)
    (limits : ∀ before stmt, before ++ [stmt] <+: stmts → stmt.WithinLimits (({} : SqlSession).run before).db)
    (room : ∀ before, before <+: stmts → (({} : SqlSession).run before).db.HasRoom) :
    Between (({} : SqlSession).run stmts) := by
  induction stmts using List.reverseRecOn with
  | nil => exact Between.start
  | append_singleton stmts stmt ih =>
    have isPrefix : stmts <+: stmts ++ [stmt] := List.prefix_append _ _
    have between := ih (fun other isOther => named other (List.mem_append_left _ isOther))
      (fun before other earlier => limits before other (earlier.trans isPrefix))
      (fun before earlier => room before (earlier.trans isPrefix))
    have roomAfter := room _ (List.prefix_refl _)
    rw [run_snoc] at roomAfter ⊢
    exact between.step (named stmt (by simp)) (limits stmts stmt (List.prefix_refl _)) roomAfter

end SqlSession

/-- In every run of statements, none of which leaves a value too often in an indexed column, heap and indexes are in
step after each statement. -/
theorem heap_and_indexes_in_step (stmts : List TableStatement) (named : ∀ stmt ∈ stmts, stmt.Named)
    (limits : ∀ before stmt, before ++ [stmt] <+: stmts → stmt.WithinLimits (({} : SqlSession).run before).db)
    (room : ∀ before, before <+: stmts → (({} : SqlSession).run before).db.WithinIds) :
    ∀ before, before <+: stmts → (({} : SqlSession).run before).db.InStep := by
  intro before isPrefix
  refine (SqlSession.run_between before (fun stmt isStmt => named stmt (isPrefix.subset isStmt))
    (fun first stmt earlier => limits first stmt (earlier.trans isPrefix))
    fun first earlier => (room first (earlier.trans isPrefix)).toHasRoom).inStep

/-- CREATE TABLE t (a INTEGER). -/
def createT : TableStatement := .createTable ⟨"t", [⟨"a", .kInteger⟩], none⟩

/-- INSERT INTO t VALUES (7). -/
def insertSeven : TableStatement := .mutation (.insert ⟨"t", [.integer 7]⟩)

/-- CREATE INDEX i ON t (a). -/
def createI : TableStatement := .createIndex ⟨"i", "t", "a"⟩

theorem heap_and_indexes_in_step_duplicate : ∃ tree rids,
    (({} : SqlSession).run [createT, insertSeven, insertSeven, createI]).db.objects 1 = some (.index tree) ∧
      tree.search 7 = .ok rids ∧ rids.length = 2 := by
  have inStep := heap_and_indexes_in_step [createT, insertSeven, insertSeven, createI]
    (by
      intro stmt isStmt
      simp only [List.mem_cons, List.not_mem_nil, or_false] at isStmt
      rcases isStmt with rfl | rfl | rfl | rfl
      · exact (by decide : IsIdentifier "t")
      · trivial
      · trivial
      · exact (by decide : IsIdentifier "i"))
    (by
      rintro before stmt ⟨rest, stmts_eq⟩
      rcases before with _ | ⟨_, _ | ⟨_, _ | ⟨_, _ | ⟨_, before⟩⟩⟩⟩ <;>
        simp only [List.nil_append, List.cons_append, List.cons.injEq] at stmts_eq
      · obtain ⟨rfl, -⟩ := stmts_eq
        trivial
      · obtain ⟨rfl, rfl, -⟩ := stmts_eq
        rintro - table - index onTable
        exact absurd (List.mem_of_mem_filter onTable) List.not_mem_nil
      · obtain ⟨rfl, rfl, rfl, -⟩ := stmts_eq
        rintro - table - index onTable
        exact absurd (List.mem_of_mem_filter onTable) List.not_mem_nil
      · obtain ⟨rfl, rfl, rfl, rfl, -⟩ := stmts_eq
        rintro - table found key
        cases found
        refine (keyCount_le_length _).trans ?_
        show 2 ≤ kLeafMaxKeys
        decide
      · obtain ⟨-, -, -, -, more⟩ := stmts_eq
        simp at more)
    (by
      intro before isPrefix
      simp only [List.prefix_cons_iff, List.prefix_nil] at isPrefix
      rcases isPrefix with rfl | ⟨_, rfl, rfl | ⟨_, rfl, rfl | ⟨_, rfl, rfl | ⟨_, rfl, rfl⟩⟩⟩⟩ <;>
        exact ⟨hasRoom_of_two rfl rfl fun _ => rfl, by decide, by decide⟩)
    _ (List.prefix_refl _)
  obtain ⟨tree, present, search⟩ := inStep.entries _ List.mem_cons_self _ List.mem_cons_self
  obtain ⟨rids, found, perm⟩ := search 7
  exact ⟨tree, rids, present, found, perm.length_eq⟩

structure Database.Heaps (n : Nat) (db : Database) : Prop where
  indexes : db.catalog.indexes = []
  objects : ∀ objectId storage, db.objects objectId = some storage → ∃ file, storage = .heap file ∧ file.allocated ≤ n

namespace Database

variable {n : Nat}

theorem Heaps.mono {db : Database} (heaps : db.Heaps n) : db.Heaps (n + 1) :=
  ⟨heaps.indexes, fun objectId storage present => by
    obtain ⟨file, isHeap, few⟩ := heaps.objects objectId storage present
    exact ⟨file, isHeap, Nat.le_succ_of_le few⟩⟩

theorem lockPage_heaps (objectId pageId : Nat) (mode : LockMode) : Keeps (Heaps n) (lockPage objectId pageId mode) := by
  intro db heaps
  cases running : db.currentTransaction with
  | none =>
    rw [lockPage_none running]
    exact heaps
  | some txnId =>
    rw [lockPage, exec_bind_ok (exec_get db), running]
    simp only
    cases ((db.others.head?.getD id) db.locks).acquireLock txnId ⟨objectId, pageId⟩ mode with
    | granted next => exact ⟨heaps.indexes, heaps.objects⟩
    | wait => exact heaps
    | die => exact heaps

theorem getHeapFile_heaps (objectId : Nat) :
    Meets (Heaps n) (getHeapFile objectId) (fun file db => file.allocated ≤ n ∧ db.Heaps n) (Heaps n) := by
  refine Meets.get_bind fun db heaps => ?_
  split
  · rename_i file present
    obtain ⟨_, ⟨⟩, few⟩ := heaps.objects objectId _ present
    exact Meets.pure _ fun s same => ⟨few, same ▸ heaps⟩
  · exact Meets.throw _ fun s same => same ▸ heaps

theorem storeHeapFile_heaps (objectId : Nat) {file : HeapFile} (few : file.allocated ≤ n) {E : Database → Prop} :
    Meets (Heaps n) (storeHeapFile objectId file) (fun _ => Heaps n) E := by
  refine fun db heaps => ⟨heaps.indexes, fun other storage present => ?_⟩
  rw [attach_objects] at present
  by_cases same : other = objectId
  · rw [same, Function.update_self, Option.some.injEq] at present
    exact ⟨file, present.symm, few⟩
  · rw [Function.update_of_ne same] at present
    exact heaps.objects other storage present

theorem insertRecord_heaps (objectId pageId : Nat) (rowBytes : Bytes) :
    Keeps (Heaps n) (insertRecord objectId pageId rowBytes) := by
  refine Meets.bind (getHeapFile_heaps objectId) fun file => Meets.of_fact fun few => ?_
  split
  · rename_i page _
    exact Meets.bind (storeHeapFile_heaps objectId (show (file.writePage pageId page).allocated ≤ n from few)) fun _ =>
      Meets.pure _ fun _ heaps => heaps
  · exact Meets.pure _ fun _ heaps => heaps

theorem heapInsert_heaps (objectId : Nat) (rowBytes : Bytes) :
    Meets (Heaps n) (heapInsert objectId rowBytes) (fun _ => Heaps (n + 1)) (Heaps (n + 1)) := by
  rw [heapInsert]
  split
  · exact Meets.throw _ fun _ heaps => heaps.mono
  · have last : Keeps (Heaps n) (insertIntoLastPage objectId rowBytes) := by
      refine Meets.bind (getHeapFile_heaps objectId) fun file => Meets.of_fact fun _ => ?_
      split
      · exact Meets.pure _ fun _ heaps => heaps
      · exact Meets.bind (lockPage_heaps _ _ _) fun _ => insertRecord_heaps _ _ _
    refine Meets.bind (last.of_error fun _ heaps => heaps.mono) fun inserted => ?_
    split
    · exact Meets.pure _ fun _ heaps => heaps.mono
    · refine Meets.bind ((getHeapFile_heaps objectId).of_error fun _ heaps => heaps.mono) fun file =>
        Meets.of_fact fun few => Meets.of_pre (fun _ heaps => heaps.mono) ?_
      have oneMore : file.newHeapPage.2.allocated ≤ n + 1 := Nat.succ_le_succ few
      refine Meets.bind (storeHeapFile_heaps objectId oneMore) fun _ => Meets.bind (lockPage_heaps _ _ _) fun _ =>
        Meets.bind (getHeapFile_heaps objectId) fun again => Meets.of_fact fun few' => ?_
      have listed : ({ again with pageIds := again.pageIds ++ [file.newHeapPage.1] } : HeapFile).allocated ≤ n + 1 := few'
      refine Meets.bind (storeHeapFile_heaps objectId listed) fun _ => Meets.bind (insertRecord_heaps _ _ _)
        fun inserted => ?_
      split
      · exact Meets.pure _ fun _ heaps => heaps
      · exact Meets.throw _ fun _ heaps => heaps

theorem executeInsert_heaps (stmt : InsertStatement) :
    Meets (Heaps n) (executeInsert stmt) (fun _ => Heaps (n + 1)) (Heaps (n + 1)) := by
  refine Meets.get_bind_any fun db heaps => ?_
  have noKey : ∀ tableName, db.catalog.primaryKeyIndex tableName = none := fun tableName => by
    rw [Catalog.primaryKeyIndex, heaps.indexes]
    rfl
  have noIndex : ∀ tableName, db.catalog.indexesOnTable tableName = [] := fun tableName => by
    rw [Catalog.indexesOnTable, heaps.indexes]
    rfl
  cases found : db.catalog.findTable stmt.tableName with
  | none =>
    simp only [found]
    exact Meets.throw _ fun _ heaps => heaps.mono
  | some table =>
    simp only [found, checkPrimaryKeyUniqueness, insertIntoAllIndexes, noKey, noIndex]
    have valid : Meets (Heaps n) (liftM (validateValuesAgainstColumns table stmt.values) : DatabaseM Unit)
        (fun _ => Heaps n) (Heaps (n + 1)) := Meets.lift (fun _ _ _ heaps => heaps) fun _ heaps => heaps.mono
    have nothing : ∀ m, Meets (Heaps m) (pure () : DatabaseM Unit) (fun _ => Heaps m) (Heaps (n + 1)) := fun m =>
      Meets.pure () fun _ heaps => heaps
    refine Meets.bind valid fun _ => Meets.bind (nothing n) fun _ => ?_
    have heap : Meets (Heaps n) (heapFileForTable stmt.tableName) (fun _ => Heaps n) (Heaps (n + 1)) := by
      refine Meets.get_bind_any fun db _ => ?_
      split
      · exact Meets.pure _ fun _ heaps => heaps
      · exact Meets.throw _ fun _ heaps => heaps.mono
    exact Meets.bind heap fun objectId => Meets.bind (heapInsert_heaps _ _) fun _ =>
      Meets.bind (nothing (n + 1)) fun _ => Meets.pure _ fun _ heaps => heaps

end Database

namespace SqlSession

variable {n : Nat}

theorem insert_heaps {session : SqlSession} (idle : session.db.currentTransaction = none)
    (heaps : session.db.Heaps n) (stmt : InsertStatement) :
    ((executeAutocommit (executeInsert stmt)).exec session).2.db.Heaps (n + 1) := by
  have ends := executeInsert_heaps stmt (begun session.db) ⟨heaps.indexes, heaps.objects⟩
  rw [executeAutocommit_exec idle]
  revert ends
  cases (executeInsert stmt).exec (begun session.db) with
  | mk outcome db =>
    cases outcome with
    | ok result => exact fun after => ⟨after.indexes, after.objects⟩
    | error e =>
      refine fun after => ⟨after.indexes, fun objectId storage present => ?_⟩
      have present : revertObject (session.files objectId) (db.objects objectId) = some storage := present
      cases isThere : db.objects objectId with
      | none =>
        rw [isThere] at present
        match session.files objectId, present with
        | none, present => cases present
        | some _, present => cases present
      | some reached =>
        obtain ⟨file, rfl, few⟩ := after.objects objectId reached isThere
        rw [isThere] at present
        match session.files objectId, present with
        | none, present => exact ⟨file, (Option.some.inj present).symm, few⟩
        | some (.heap start), present => exact ⟨start.revert file, (Option.some.inj present).symm, few⟩
        | some (.index start), present => exact ⟨file, (Option.some.inj present).symm, few⟩

end SqlSession

def plainCatalog : Catalog :=
  Catalog.pushTable emptyCatalog "t" [⟨"a", .kInteger⟩] none emptyCatalog_fresh oneColumn_ne oneColumn_nodup

def plainTable : TableInfo := ⟨"t", [⟨"a", .kInteger⟩], none, 0, oneColumn_ne, oneColumn_nodup⟩

structure Sevens (n : Nat) (session : SqlSession) : Prop where
  between : session.Between
  catalog_eq : session.db.catalog = plainCatalog
  heaps : session.db.Heaps n
  rows : ((session.db.contents "t").map Prod.snd).Perm (List.replicate n [.integer 7])

theorem sevens_zero : Sevens 0 (({} : SqlSession).run [createT]) := by
  refine ⟨SqlSession.Between.start.createTable _ (by decide), rfl, ⟨rfl, fun objectId storage present => ?_⟩,
    List.Perm.refl _⟩
  have present : Function.update (fun _ => none) 0 (some (.heap {})) objectId = some storage := present
  by_cases here : objectId = 0
  · rw [here, Function.update_self, Option.some.injEq] at present
    exact ⟨{}, present.symm, Nat.le_refl 0⟩
  · rw [Function.update_of_ne here] at present
    cases present

theorem Sevens.insert {n : Nat} {session : SqlSession} (sevens : Sevens n session) (small : n + 1 < 2 ^ 32) :
    Sevens (n + 1) ((SqlSession.execute insertSeven.statement).exec session).2 := by
  let m : Mutation := .insert ⟨"t", [.integer 7]⟩
  have heaps := SqlSession.insert_heaps sevens.between.idle sevens.heaps ⟨"t", [.integer 7]⟩
  have room : ((SqlSession.executeAutocommit m.execute).exec session).2.db.HasRoom := by
    refine ⟨fun objectId file present => ?_, fun objectId tree present => ?_⟩
    · obtain ⟨_, ⟨⟩, few⟩ := heaps.objects objectId _ present
      omega
    · obtain ⟨_, ⟨⟩, -⟩ := heaps.objects objectId _ present
  have limits : (TableStatement.mutation m).WithinLimits session.db := by
    rintro - table - index onTable
    rw [sevens.catalog_eq] at onTable
    cases onTable
  obtain ⟨between, catalog_eq, contents⟩ := sevens.between.mutation_effect m limits room
  refine ⟨between, catalog_eq.trans sevens.catalog_eq, heaps, ?_⟩
  have found : session.db.catalog.findTable m.tableName = plainCatalog.findTable "t" := by
    rw [sevens.catalog_eq]
    rfl
  have accepted : ¬ m.Rejected session.db.catalog session.db.contents := by
    rw [Mutation.rejected_iff found]
    rintro (misfit | ⟨row, isRow, tooLarge⟩ | clash)
    · exact misfit (.cons rfl .nil)
    · rw [List.mem_singleton.mp isRow] at tooLarge
      exact absurd tooLarge (by decide)
    · exact clash fun key isKey => by cases isKey
  have perm := contents accepted _ found
  rw [List.replicate_succ']
  exact perm.trans (sevens.rows.append_right _)

theorem run_sevens {n : Nat} (small : n < 2 ^ 32) :
    Sevens n (({} : SqlSession).run (createT :: List.replicate n insertSeven)) := by
  induction n with
  | zero => exact sevens_zero
  | succ n ih =>
    rw [List.replicate_succ', ← List.cons_append, SqlSession.run_snoc]
    exact (ih (Nat.lt_of_succ_lt small)).insert small

theorem Sevens.out_of_step {n : Nat} {session : SqlSession} (sevens : Sevens n session) (many : kLeafMaxKeys < n) :
    ¬ ((SqlSession.execute createI.statement).exec session).2.db.InStep := by
  have created : ∃ after, session.db.catalog.createIndex "i" "t" "a" = .ok (1, after) ∧
      after.tables = plainCatalog.tables ∧ after.indexes = [⟨"i", "t", "a", 1, false⟩] := by
    rw [sevens.catalog_eq]
    exact ⟨_, rfl, rfl, rfl⟩
  obtain ⟨after, created, tables_eq, indexes_eq⟩ := created
  have found : session.db.catalog.findTable "t" = plainCatalog.findTable "t" := by rw [sevens.catalog_eq]
  have between := sevens.between
  have ends := executeCreateIndex_settles ⟨"i", "t", "a"⟩ between.inactive between.idle between.lockstep created found
    (fun never : False => never.elim) session.db rfl
  -- whether or not the backfill came to its end
  have filled : ∃ tree, ((SqlSession.execute createI.statement).exec session).2.db =
      ({ session.db with catalog := after } : Database).attach 1 (.index tree) ∧ tree.LeavesFit := by
    show ∃ tree, ((SqlSession.executeDdl (executeCreateIndex ⟨"i", "t", "a"⟩)).exec session).2.db = _ ∧ _
    rw [SqlSession.executeDdl_exec]
    revert ends
    cases (executeCreateIndex ⟨"i", "t", "a"⟩).exec session.db with
    | mk outcome db =>
      cases outcome with
      | ok result =>
        rintro ⟨tree, db_eq, fits, _⟩
        exact ⟨tree, db_eq, fits⟩
      | error e =>
        rintro ⟨tree, db_eq, fits, _⟩
        exact ⟨tree, db_eq, fits⟩
  obtain ⟨tree, db_eq, fits⟩ := filled
  intro inStep
  rw [db_eq] at inStep
  have isTable : plainTable ∈ after.tables := tables_eq ▸ List.mem_singleton_self plainTable
  have onTable : (⟨"i", "t", "a", 1, false⟩ : IndexInfo) ∈ after.indexesOnTable plainTable.name :=
    Catalog.mem_indexesOnTable.mpr ⟨indexes_eq ▸ List.mem_cons_self, rfl⟩
  obtain ⟨_, present, search⟩ := inStep.entries _ isTable _ onTable
  rw [attach_objects, Function.update_self] at present
  cases present
  obtain ⟨rids, returned, perm⟩ := search 7
  have same : (({ session.db with catalog := after } : Database).attach 1 (.index tree)).contents plainTable.name =
      session.db.contents "t" := by
    have foundAfter : after.findTable plainTable.name = some plainTable :=
      Catalog.findTable_eq_some.mpr ⟨isTable, rfl⟩
    have found : session.db.catalog.findTable "t" = some plainTable := found
    simp only [Database.contents, attach_catalog, attach_objects, foundAfter, found]
    rw [Function.update_of_ne (show plainTable.heapObjectId ≠ 1 by decide)]
  have every : ∀ row ∈ session.db.contents "t", row.2 = [.integer 7] := fun row isRow =>
    List.eq_of_mem_replicate (sevens.rows.mem_iff.mp (List.mem_map_of_mem isRow))
  have all : ((session.db.contents "t").filter fun row => plainTable.keyAt "a" row.2 = some 7) =
      session.db.contents "t" := by
    refine List.filter_eq_self.mpr fun row isRow => ?_
    rw [every row isRow]
    decide
  have short := BPlusTree.search_length_le fits returned
  have counted : rids.length = (session.db.contents "t").length := by
    rw [perm.length_eq, List.length_map, same]
    exact congrArg List.length all
  have length := sevens.rows.length_eq
  rw [List.length_map, List.length_replicate] at length
  omega

/-- CREATE TABLE, 292 rows of one value, CREATE INDEX. -/
theorem crowded_column_out_of_step :
    ¬ ∀ before, before <+: createT :: List.replicate 292 insertSeven ++ [createI] →
      (({} : SqlSession).run before).db.InStep := by
  intro inStep
  have last := inStep _ (List.prefix_refl _)
  rw [SqlSession.run_snoc] at last
  exact (run_sevens (by omega)).out_of_step (by rw [kLeafMaxKeys_eq]; omega) last

end FlintDB
