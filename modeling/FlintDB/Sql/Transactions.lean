import FlintDB.Sql.Answers
import FlintDB.Sql.Printer
import FlintDB.Sql.SessionRuns

set_option autoImplicit false

-- The answers of a session that has the database to itself are those of tables without pages, indexes and plans, and
-- a ROLLBACK brings back the rows from before BEGIN though it only brings back pages.

namespace FlintDB

open Lib Fallible Database

theorem ObjectStorage.Extends.trans {first second third : Option ObjectStorage}
    (early : ObjectStorage.Extends first second) (late : ObjectStorage.Extends second third) :
    ObjectStorage.Extends first third := by
  match first, second, third with
  | some (.heap _), some (.heap _), some (.heap _) => exact HeapFile.Extends.trans early late
  | some (.index _), some (.index _), some (.index _) => exact Nat.le_trans early late
  | none, none, none => trivial
  | some (.heap _), some (.heap _), some (.index _) => exact late.elim
  | some (.heap _), some (.heap _), none => exact late.elim
  | some (.heap _), some (.index _), _ => exact early.elim
  | some (.heap _), none, _ => exact early.elim
  | some (.index _), some (.index _), some (.heap _) => exact late.elim
  | some (.index _), some (.index _), none => exact late.elim
  | some (.index _), some (.heap _), _ => exact early.elim
  | some (.index _), none, _ => exact early.elim
  | none, some _, _ => exact early.elim
  | none, none, some _ => exact late.elim

namespace HeapFile

variable {start file : HeapFile}

theorem sound_revert (sound : start.Sound) (extended : start.Extends file) (room : file.allocated < 2 ^ 32) :
    (start.revert file).Sound := by
  obtain ⟨extra, pageIds_eq, extraNodup, fresh⟩ := extended.listed room
  have grown := extended.allocated
  have pageIds : (start.revert file).pageIds = start.pageIds ++ extra := pageIds_eq
  refine ⟨?_, fun pageId isListed => ?_, fun pageId beyond => sound.zero pageId (grown.trans beyond)⟩
  · rw [pageIds]
    refine List.nodup_append.mpr ⟨sound.nodup, extraNodup, fun older isOlder newer isNewer same => ?_⟩
    have below := sound.listed older isOlder
    have above := (fresh newer isNewer).1
    omega
  · rw [pageIds] at isListed
    rcases List.mem_append.mp isListed with older | newer
    · exact Nat.lt_of_lt_of_le (sound.listed pageId older) grown
    · exact (fresh pageId newer).2

theorem rows_revert (sound : start.Sound) (extended : start.Extends file) (room : file.allocated < 2 ^ 32) :
    (start.revert file).rows = start.rows := by
  obtain ⟨extra, pageIds_eq, -, fresh⟩ := extended.listed room
  have bare : extra.flatMap start.rowsOn = [] := by
    refine List.flatMap_eq_nil_iff.mpr fun pageId isExtra => ?_
    simp [rowsOn, sound.zero pageId (fresh pageId isExtra).1, Page.liveRecords]
  show file.pageIds.flatMap start.rowsOn = start.pageIds.flatMap start.rowsOn
  rw [pageIds_eq, List.flatMap_append, bare, List.append_nil]

end HeapFile

theorem BPlusTree.Represents.revert {start tree : BPlusTree} {stored : List (Int × RID)}
    (represents : start.Represents stored) (grown : start.allocated ≤ tree.allocated)
    (room : tree.allocated < invalidPageId) : (start.revert tree).Represents stored := by
  refine ⟨Nat.lt_of_lt_of_le represents.header grown, room, ?_⟩
  rcases represents.shape with ⟨empty, nothing⟩ | ⟨h, layout, shape, perm⟩
  · exact .inl ⟨empty, nothing⟩
  · refine .inr ⟨h, layout, ⟨shape.root, shape.held.congr fun page inTree => ?_, shape.nodup, fun page inTree => ?_,
      shape.fits, shape.linked⟩, perm⟩
    · exact if_neg fun fresh => Nat.not_lt.mpr fresh.1 (shape.inFile page inTree).2
    · exact ⟨(shape.inFile page inTree).1, Nat.lt_of_lt_of_le (shape.inFile page inTree).2 grown⟩

structure Realizes (catalog : Catalog) (objects : Nat → Option ObjectStorage)
    (rows : String → List (List LiteralValue)) : Prop where
  lockstep : ∃ contents, Lockstep catalog objects contents ∧ SameRows catalog contents.values rows
  unique : ∀ table ∈ catalog.tables, table.KeysUnique (rows table.name)

theorem Lockstep.revert {catalog : Catalog} {files : Nat → Option ObjectStorage} {contents : Contents}
    (lockstep : Lockstep catalog files contents) {db : Database}
    (extended : ∀ objectId, ObjectStorage.Extends (files objectId) (db.objects objectId)) (room : db.HasRoom) :
    Lockstep catalog (fun objectId => SqlSession.revertObject (files objectId) (db.objects objectId)) contents := by
  refine ⟨fun table isTable => ?_, lockstep.storable, fun table isTable index onTable => ?_⟩
  · obtain ⟨start, present, sound, rows_eq⟩ := lockstep.heap table isTable
    have grown := extended table.heapObjectId
    rw [present] at grown
    cases reached : db.objects table.heapObjectId with
    | none =>
      rw [reached] at grown
      exact grown.elim
    | some storage =>
      rw [reached] at grown
      cases storage with
      | index tree => exact grown.elim
      | heap file =>
        have enough := room.heap _ file reached
        exact ⟨start.revert file, by simp only [present]; rfl, HeapFile.sound_revert sound grown enough,
          (HeapFile.rows_revert sound grown enough).trans rows_eq⟩
  · obtain ⟨start, present, represents⟩ := lockstep.index table isTable index onTable
    have grown := extended index.objectId
    rw [present] at grown
    cases reached : db.objects index.objectId with
    | none =>
      rw [reached] at grown
      exact grown.elim
    | some storage =>
      rw [reached] at grown
      cases storage with
      | heap file => exact grown.elim
      | index tree =>
        exact ⟨start.revert tree, by simp only [present]; rfl, represents.revert grown (room.index _ tree reached)⟩

theorem Realizes.revert {catalog : Catalog} {files : Nat → Option ObjectStorage}
    {rows : String → List (List LiteralValue)} (realizes : Realizes catalog files rows) {db : Database}
    (extended : ∀ objectId, ObjectStorage.Extends (files objectId) (db.objects objectId)) (room : db.HasRoom) :
    Realizes catalog (fun objectId => SqlSession.revertObject (files objectId) (db.objects objectId)) rows := by
  obtain ⟨contents, lockstep, same⟩ := realizes.lockstep
  exact ⟨⟨contents, lockstep.revert extended room, same⟩, realizes.unique⟩

/-- The same rows in any order, or a refusal on both sides. -/
def Answers : Except Exception ExecuteResult → Option ExecuteResult → Prop
  | .ok result, some expected => result.rows.Perm expected.rows ∧ result.columnNames = expected.columnNames ∧
      result.rowsAffected = expected.rowsAffected
  | .error e, none => e.Thrown
  | _, _ => False

inductive Database.Does (db : Database) (r : Relations) :
    Except Exception ExecuteResult × Database → Option ExecuteResult × Relations → Prop
  | refused {e : Exception} {after : Database} (thrown : e.Thrown) (still : db.Still after) :
      Does db r (.error e, after) (none, r)
  | done {result expected : ExecuteResult} {after : Database} {rows : String → List (List LiteralValue)}
      (extended : db.Extended after) (answers : Answers (.ok result) (some expected))
      (realizes : after.HasRoom → Realizes r.catalog after.objects rows) :
      Does db r (.ok result, after) (some expected, { r with rows := rows })
  | full {e : Exception} {after : Database} {outcome : Option ExecuteResult × Relations} (extended : db.Extended after)
      (noRoom : ¬ after.HasRoom) : Does db r (.error e, after) outcome

section Statements

variable {r : Relations} {db : Database} (catalog_eq : db.catalog = r.catalog) (alone : db.Alone)
  (keyed : r.catalog.Keyed) (realizes : Realizes r.catalog db.objects r.rows)
include catalog_eq alone keyed realizes

theorem mutate_does (m : Mutation) (limits : (r.mutate m).2.WithinLimits) :
    db.Does r (m.execute.exec db) (r.mutate m) := by
  obtain ⟨⟨contents, lockstep, same⟩, unique⟩ := realizes
  rw [← catalog_eq] at keyed lockstep
  have uniqueHere : ∀ table ∈ db.catalog.tables, table.KeysUnique ((contents table.name).map Prod.snd) :=
    fun table isTable => (unique table (catalog_eq ▸ isTable)).perm (same table (catalog_eq ▸ isTable)).symm
  have sameRows : SameRows r.catalog contents.values r.contents.values := by
    rw [Relations.contents_values]
    exact same
  have rejected_iff : m.Rejected db.catalog contents ↔ m.Rejected r.catalog r.contents := by
    rw [catalog_eq]
    exact m.rejected_perm sameRows
  by_cases rejected : m.Rejected r.catalog r.contents
  · obtain ⟨e, after, thrown, fails, still⟩ :=
      m.execute_refused keyed alone lockstep uniqueHere (rejected_iff.mpr rejected)
    have refuses : r.mutate m = (none, r) := by
      rw [Relations.mutate]
      split
      · rfl
      · rw [if_pos rejected]
    rw [fails, refuses]
    exact .refused thrown still
  · cases found : r.catalog.findTable m.tableName with
    | none => exact absurd (.inl found) rejected
    | some table =>
      have isTable := (Catalog.findTable_eq_some.mp found).1
      have accepts : r.mutate m = (some { rowsAffected := m.touched table (r.rows table.name) },
          { r with rows := Function.update r.rows table.name (m.result table (r.rows table.name)) }) := by
        rw [Relations.mutate, found]
        exact if_neg rejected
      rw [accepts] at limits ⊢
      have changed : (m.result table (contents.values table.name)).Perm (m.result table (r.rows table.name)) :=
        m.result_perm (same table isTable)
      have few : ∀ index, FewKeys db.catalog table (m.result table ((contents table.name).map Prod.snd)) index := by
        intro index
        refine FewKeys.perm (fun onTable key => ?_) changed.symm
        have atMost : keyCount table index.columnName key
            (Function.update r.rows table.name (m.result table (r.rows table.name)) table.name) ≤ kLeafMaxKeys :=
          limits table isTable index (catalog_eq ▸ onTable) key
        rwa [Function.update_self] at atMost
      rcases m.execute_answers keyed alone lockstep uniqueHere (fun refused => rejected (rejected_iff.mp refused))
        (catalog_eq ▸ found) few with
        ⟨e, after, fails, extended, noRoom⟩ | ⟨after, rows, returns, perm, extended, inStep, once⟩
      · rw [fails]
        exact .full extended noRoom
      · rw [returns]
        have sameAfter : SameRows r.catalog (Contents.values (Function.update contents table.name rows))
            (Function.update r.rows table.name (m.result table (r.rows table.name))) := by
          have updated : Contents.values (Function.update contents table.name rows) =
              Function.update contents.values table.name (rows.map Prod.snd) := by
            funext tableName
            by_cases here : tableName = table.name <;> simp [Contents.values, here]
          rw [updated]
          exact same.update table.name (perm.trans changed)
        refine .done extended ⟨List.Perm.refl _, rfl, m.touched_perm (same table isTable)⟩ fun room =>
          ⟨⟨_, catalog_eq ▸ inStep room, sameAfter⟩, fun other isOther => ?_⟩
        exact (once other (catalog_eq ▸ isOther)).perm (sameAfter other isOther)

theorem query_does (stmt : SelectStatement) : db.Does r ((executeSelect stmt).exec db) (r.query stmt) := by
  obtain ⟨contents, lockstep, same⟩ := realizes.lockstep
  rw [← catalog_eq] at keyed lockstep same
  rw [Relations.query]
  by_cases meaningful : stmt.Meaningful r.catalog
  · rw [if_pos meaningful]
    obtain ⟨result, after, returns, still, perm, labels, noRows⟩ :=
      executeSelect_answers lockstep keyed.distinct alone (catalog_eq ▸ meaningful)
    rw [returns]
    rw [catalog_eq] at perm labels
    have sameRows : SameRows r.catalog contents.values r.contents.values := by
      rw [Relations.contents_values, ← catalog_eq]
      exact same
    have reordered := naiveSelect_perm sameRows stmt
    exact .done still.extended ⟨perm.trans reordered, labels, noRows⟩ fun _ => still.objects_eq ▸ realizes
  · rw [if_neg meaningful]
    obtain ⟨e, thrown, fails⟩ := @executeSelect_refused db _ (catalog_eq ▸ meaningful)
    rw [fails]
    exact .refused thrown (still_of_alone alone)

end Statements

/-- New objects get names that the parser lets through. -/
def Statement.Named : Statement → Prop
  | .createTable stmt => IsIdentifier stmt.tableName
  | .createIndex stmt => IsIdentifier stmt.indexName
  | _ => True

theorem Statement.WellFormed.named {stmt : Statement} (wellFormed : stmt.WellFormed) : stmt.Named := by
  cases stmt with
  | createTable stmt => exact wellFormed.1
  | createIndex stmt => exact wellFormed.1
  | insert | select | update | delete | begin | commit | rollback => trivial

namespace SqlSession

structure Tracks (session : SqlSession) (r : Relations) : Prop where
  catalog_eq : session.db.catalog = r.catalog
  alone : session.db.Alone
  keyed : r.catalog.Keyed
  working : Realizes r.catalog session.db.objects r.rows
  stored : Realizes r.catalog session.files (r.saved.getD r.rows)
  grown : ∀ objectId, ObjectStorage.Extends (session.files objectId) (session.db.objects objectId)
  idle : r.saved = none → session.db.currentTransaction = none ∧ session.db.activeTxns = ∅ ∧
    ∀ objectId, revertObject (session.files objectId) (session.db.objects objectId) = session.db.objects objectId
  running : ∀ rows, r.saved = some rows → ∃ txnId, session.db.currentTransaction = some txnId ∧
    session.db.activeTxns = {txnId}

theorem finish_alone {db : Database} (alone : db.Alone) {txnId : Nat} (running : db.currentTransaction = some txnId) :
    (finish db txnId).Alone := by
  refine ⟨alone.still, LockManager.consistent_releaseAll alone.consistent, fun other key held => ?_⟩
  obtain ⟨different, before⟩ := (LockManager.holds_releaseAll alone.consistent other key).mp held
  exact absurd (Option.some.inj ((alone.own other key before).symm.trans running)) different

theorem revertObject_revertObject {start reached : Option ObjectStorage} (grown : ObjectStorage.Extends start reached) :
    revertObject start (revertObject start reached) = revertObject start reached := by
  match start, reached with
  | some (.heap _), some (.heap _) => rfl
  | some (.index _), some (.index _) => rfl
  | none, none => rfl
  | some (.heap _), some (.index _) => exact grown.elim
  | some (.heap _), none => exact grown.elim
  | some (.index _), some (.heap _) => exact grown.elim
  | some (.index _), none => exact grown.elim
  | none, some _ => exact grown.elim

theorem extends_revertObject {start reached : Option ObjectStorage} (grown : ObjectStorage.Extends start reached) :
    ObjectStorage.Extends start (revertObject start reached) := by
  match start, reached with
  | some (.heap _), some (.heap _) => exact ⟨grown.allocated, grown.listed⟩
  | some (.index _), some (.index _) => exact grown
  | none, none => exact grown
  | some (.heap _), some (.index _) => exact grown.elim
  | some (.heap _), none => exact grown.elim
  | some (.index _), some (.heap _) => exact grown.elim
  | some (.index _), none => exact grown.elim
  | none, some _ => exact grown.elim

namespace Tracks

variable {session : SqlSession} {r : Relations} (tracks : session.Tracks r)
include tracks

theorem begins : Answers ((execute .begin).exec session).1 r.beginTransaction.1 ∧
    Tracks ((execute .begin).exec session).2 r.beginTransaction.2 := by
  cases saved : r.saved with
  | some rows =>
    obtain ⟨txnId, running, -⟩ := tracks.running rows saved
    have refuses : (execute .begin).exec session = (.error alreadyActive, session) := by
      rw [execute, executeBegin, beginTransaction, bind_assoc, exec_bind_ok (exec_get session), running]
      rfl
    rw [refuses, Relations.beginTransaction, saved]
    exact ⟨trivial, tracks⟩
  | none =>
    obtain ⟨idle, inactive, -⟩ := tracks.idle saved
    have begins : (execute .begin).exec session = (.ok {}, { session with db := begun session.db }) := by
      rw [execute, executeBegin, beginTransaction, bind_assoc, exec_bind_ok (exec_get session), idle]
      rfl
    rw [begins, Relations.beginTransaction, saved]
    have stored := tracks.stored
    rw [saved, Option.getD_none] at stored
    refine ⟨⟨List.Perm.refl _, rfl, rfl⟩, tracks.catalog_eq, ⟨tracks.alone.still, tracks.alone.consistent,
      fun other key held => ?_⟩, tracks.keyed, tracks.working, stored, tracks.grown, (fun closed => by cases closed),
      fun rows _ => ⟨_, rfl, ?_⟩⟩
    · cases idle.symm.trans (tracks.alone.own other key held)
    · show insert session.db.nextTxnId session.db.activeTxns = {session.db.nextTxnId}
      rw [inactive]
      rfl

theorem commits : Answers ((execute .commit).exec session).1 r.commit.1 ∧
    Tracks ((execute .commit).exec session).2 r.commit.2 := by
  cases saved : r.saved with
  | none =>
    obtain ⟨idle, -⟩ := tracks.idle saved
    have refuses : ∃ e, e.Thrown ∧ (execute .commit).exec session = (.error e, session) := by
      rw [execute, executeCommit, exec_bind_ok (exec_get session), idle]
      exact ⟨.logicError _, trivial, rfl⟩
    obtain ⟨e, thrown, refuses⟩ := refuses
    rw [refuses, Relations.commit, saved]
    exact ⟨thrown, tracks⟩
  | some rows =>
    obtain ⟨txnId, running, active⟩ := tracks.running rows saved
    have commits : (execute .commit).exec session =
        (.ok {}, { db := finish session.db txnId, files := session.db.objects }) := by
      rw [execute, executeCommit, exec_bind_ok (exec_get session), running]
      rfl
    rw [commits, Relations.commit, saved]
    refine ⟨⟨List.Perm.refl _, rfl, rfl⟩, tracks.catalog_eq, finish_alone tracks.alone running, tracks.keyed, tracks.working,
      tracks.working, fun objectId => ObjectStorage.Extends.refl _, fun _ => ⟨rfl, ?_, fun objectId =>
        revertObject_self _⟩, (fun _ isOpen => by cases isOpen)⟩
    show session.db.activeTxns.erase txnId = ∅
    simp [active]

theorem rollsBack (room : session.db.HasRoom) : Answers ((execute .rollback).exec session).1 r.rollback.1 ∧
    Tracks ((execute .rollback).exec session).2 r.rollback.2 := by
  cases saved : r.saved with
  | none =>
    obtain ⟨idle, -⟩ := tracks.idle saved
    have refuses : ∃ e, e.Thrown ∧ (execute .rollback).exec session = (.error e, session) := by
      rw [execute, executeRollback, exec_bind_ok (exec_get session), idle]
      exact ⟨.logicError _, trivial, rfl⟩
    obtain ⟨e, thrown, refuses⟩ := refuses
    rw [refuses, Relations.rollback, saved]
    exact ⟨thrown, tracks⟩
  | some rows =>
    obtain ⟨txnId, running, active⟩ := tracks.running rows saved
    have rollsBack : (execute .rollback).exec session = (.ok {}, { session with db := finish { session.db with
        objects := fun objectId => revertObject (session.files objectId) (session.db.objects objectId) } txnId }) := by
      rw [execute, executeRollback, exec_bind_ok (exec_get session), running]
      rfl
    have stored := tracks.stored
    rw [saved, Option.getD_some] at stored
    rw [rollsBack, Relations.rollback, saved]
    refine ⟨⟨List.Perm.refl _, rfl, rfl⟩, tracks.catalog_eq, ?_, tracks.keyed, stored.revert tracks.grown room, stored,
      fun objectId => extends_revertObject (tracks.grown objectId), fun _ => ⟨rfl, ?_, fun objectId =>
        revertObject_revertObject (tracks.grown objectId)⟩, (fun _ isOpen => by cases isOpen)⟩
    · have finished := finish_alone tracks.alone running
      exact ⟨finished.still, finished.consistent, finished.own⟩
    · show session.db.activeTxns.erase txnId = ∅
      simp [active]

theorem ddl_refused {program : DatabaseM ExecuteResult} {e : Exception}
    (fails : program.exec session.db = (.error e, session.db)) :
    (executeDdl program).exec session = (.error e, session) := by
  rw [executeDdl_exec, fails]
  have kept : (fun objectId => orUnflushed (session.files objectId) (session.db.objects objectId)) = session.files := by
    funext objectId
    have grown := tracks.grown objectId
    cases start : session.files objectId with
    | some file => rfl
    | none =>
      rw [start] at grown
      cases reached : session.db.objects objectId with
      | none => rfl
      | some storage =>
        rw [reached] at grown
        exact grown.elim
  simp only [kept]

theorem defined {after : Catalog} (keyed : after.Keyed) (saved : r.saved = none)
    {objects : Nat → Option ObjectStorage} {rows : String → List (List LiteralValue)}
    (realizes : Realizes after objects rows) :
    Tracks { db := { session.db with catalog := after, objects := objects }, files := objects }
      ⟨after, rows, none⟩ := by
  obtain ⟨idle, inactive, -⟩ := tracks.idle saved
  exact ⟨rfl, ⟨tracks.alone.still, tracks.alone.consistent, tracks.alone.own⟩, keyed, realizes, realizes,
    fun objectId => ObjectStorage.Extends.refl _, fun _ => ⟨idle, inactive, fun objectId => revertObject_self _⟩,
    (fun _ isOpen => by cases isOpen)⟩

theorem createsTable (stmt : CreateTableStatement) (isName : IsIdentifier stmt.tableName) :
    Answers ((execute (.createTable stmt)).exec session).1 (r.createTable stmt).1 ∧
      Tracks ((execute (.createTable stmt)).exec session).2 (r.createTable stmt).2 := by
  show Answers ((executeDdl (executeCreateTable stmt)).exec session).1 _ ∧
    Tracks ((executeDdl (executeCreateTable stmt)).exec session).2 _
  cases saved : r.saved with
  | some rows =>
    obtain ⟨txnId, -, active⟩ := tracks.running rows saved
    obtain ⟨e, thrown, throws⟩ := @requireNoActiveTransaction_active session.db (by simp [active]) "CREATE TABLE"
    have fails : (executeCreateTable stmt).exec session.db = (.error e, session.db) := exec_bind_error throws
    rw [tracks.ddl_refused fails, Relations.createTable, saved]
    exact ⟨thrown, tracks⟩
  | none =>
    obtain ⟨idle, inactive, -⟩ := tracks.idle saved
    cases created : r.catalog.createTable stmt.tableName stmt.columns stmt.primaryKeyColumn with
    | error e =>
      have fails := executeCreateTable_refused inactive (tracks.catalog_eq ▸ created)
      rw [tracks.ddl_refused fails, Relations.createTable, saved, created]
      exact ⟨r.catalog.createTable_thrown _ _ _ e created, tracks⟩
    | ok new =>
      obtain ⟨heapId, after⟩ := new
      obtain ⟨contents, lockstep, same⟩ := tracks.working.lockstep
      have created' := tracks.catalog_eq ▸ created
      obtain ⟨db, returns⟩ := executeCreateTable_answers inactive created'
      have settles := executeCreateTable_settles stmt inactive (tracks.catalog_eq ▸ lockstep) session.db rfl
      rw [returns] at settles
      obtain ⟨heapId', after', created'', db_eq, lockstepAfter⟩ := settles
      cases created'.symm.trans created''
      have older : ∀ table ∈ after.tables, table.name ≠ stmt.tableName → table ∈ r.catalog.tables := by
        intro table isTable different
        obtain ⟨-, fresh, columns_ne, columns_nodup, pushed⟩ := Catalog.createTable_ok created
        rcases pushed with ⟨-, rfl⟩ | ⟨key, integer, -, rfl⟩ <;>
        · refine (List.mem_append.mp isTable).resolve_right fun isNew => different ?_
          rw [List.mem_singleton.mp isNew]
      have realizes : Realizes after db.objects (Function.update r.rows stmt.tableName []) := by
        refine ⟨⟨_, lockstepAfter, fun table isTable => ?_⟩, fun table isTable => ?_⟩
        · by_cases newest : table.name = stmt.tableName
          · simp [Contents.values, newest]
          · simp only [Contents.values, Function.update_of_ne newest]
            exact same table (older table isTable newest)
        · by_cases newest : table.name = stmt.tableName
          · rw [newest, Function.update_self]
            exact fun _ _ => List.nodup_nil
          · rw [Function.update_of_ne newest]
            exact tracks.working.unique table (older table isTable newest)
      have defined := tracks.defined (tracks.keyed.createTable isName created) saved realizes
      rw [← db_eq] at defined
      have accepts : r.createTable stmt = (some {}, ⟨after, Function.update r.rows stmt.tableName [], none⟩) := by
        rw [Relations.createTable, saved, created]
      rw [executeDdl_exec, returns, accepts]
      exact ⟨⟨List.Perm.refl _, rfl, rfl⟩, defined⟩

theorem createsIndex (stmt : CreateIndexStatement) (isName : IsIdentifier stmt.indexName)
    (limits : (r.createIndex stmt).2.WithinLimits)
    (room : ((execute (.createIndex stmt)).exec session).2.db.HasRoom) :
    Answers ((execute (.createIndex stmt)).exec session).1 (r.createIndex stmt).1 ∧
      Tracks ((execute (.createIndex stmt)).exec session).2 (r.createIndex stmt).2 := by
  change ((executeDdl (executeCreateIndex stmt)).exec session).2.db.HasRoom at room
  show Answers ((executeDdl (executeCreateIndex stmt)).exec session).1 _ ∧
    Tracks ((executeDdl (executeCreateIndex stmt)).exec session).2 _
  cases saved : r.saved with
  | some rows =>
    obtain ⟨txnId, -, active⟩ := tracks.running rows saved
    obtain ⟨e, thrown, throws⟩ := @requireNoActiveTransaction_active session.db (by simp [active]) "CREATE INDEX"
    have fails : (executeCreateIndex stmt).exec session.db = (.error e, session.db) := exec_bind_error throws
    rw [tracks.ddl_refused fails, Relations.createIndex, saved]
    exact ⟨thrown, tracks⟩
  | none =>
    obtain ⟨idle, inactive, -⟩ := tracks.idle saved
    cases created : r.catalog.createIndex stmt.indexName stmt.tableName stmt.columnName with
    | error e =>
      have fails := executeCreateIndex_refused inactive (tracks.catalog_eq ▸ created)
      rw [tracks.ddl_refused fails, Relations.createIndex, saved, created]
      exact ⟨r.catalog.createIndex_thrown _ _ _ e created, tracks⟩
    | ok new =>
      obtain ⟨objectId, after⟩ := new
      obtain ⟨contents, lockstep, same⟩ := tracks.working.lockstep
      have accepts : r.createIndex stmt = (some {}, ⟨after, r.rows, none⟩) := by
        rw [Relations.createIndex, saved, created]
      rw [accepts] at limits ⊢
      obtain ⟨objectId_eq, -, table, column, integer, found, isColumn, after_eq⟩ := Catalog.createIndex_ok created
      obtain ⟨isTable, named⟩ := Catalog.findTable_eq_some.mp found
      have few : True → ∀ key, ((table.entries stmt.columnName (contents table.name)).map Prod.fst).count key ≤
          kLeafMaxKeys := fun _ key => by
        rw [TableInfo.keys_entries]
        show keyCount table stmt.columnName key (contents.values table.name) ≤ kLeafMaxKeys
        rw [keyCount_perm (same table isTable)]
        refine limits table (after_eq ▸ isTable) ⟨stmt.indexName, stmt.tableName, stmt.columnName, objectId, false⟩ ?_ key
        refine Catalog.mem_indexesOnTable.mpr ⟨?_, named.symm⟩
        rw [after_eq, objectId_eq]
        exact List.mem_append_right _ (List.mem_singleton_self _)
      have ends := executeCreateIndex_settles stmt inactive idle (tracks.catalog_eq ▸ lockstep)
        (tracks.catalog_eq ▸ created) (tracks.catalog_eq ▸ found) few session.db rfl
      have returns := executeCreateIndex_returns stmt session.db trivial
      rw [executeDdl_exec] at room ⊢
      revert room ends returns
      cases (executeCreateIndex stmt).exec session.db with
      | mk outcome db =>
        cases outcome with
        | error e =>
          rintro room ⟨tree, rfl, -, full⟩
          exact absurd (room.index objectId tree (by simp)) (full trivial)
        | ok result =>
          rintro room ⟨tree, rfl, -, represents⟩ rfl
          have here := represents trivial (room.index objectId tree (by simp))
          have pushed : Lockstep after (Function.update session.db.objects objectId (some (.index tree))) contents := by
            subst objectId_eq after_eq
            refine lockstep.pushIndex integer fun other isOther same => ?_
            have isThis : other = table :=
              List.inj_on_of_nodup_map r.catalog.names_nodup isOther isTable (same.trans named.symm)
            rw [isThis]
            exact here
          have realizes : Realizes after (Function.update session.db.objects objectId (some (.index tree))) r.rows := by
            have tables_eq : after.tables = r.catalog.tables := by
              rw [after_eq]
              rfl
            refine ⟨⟨contents, pushed, fun other isOther => same other (tables_eq ▸ isOther)⟩, fun other isOther => ?_⟩
            exact tracks.working.unique other (tables_eq ▸ isOther)
          have defined := tracks.defined (tracks.keyed.createIndex isName created) saved realizes
          exact ⟨⟨List.Perm.refl _, rfl, rfl⟩, defined⟩

theorem autocommits {program : DatabaseM ExecuteResult} {outcome : Option ExecuteResult × Relations}
    (does : ∀ db : Database, db.catalog = r.catalog → db.Alone → Realizes r.catalog db.objects r.rows →
      db.Does r (program.exec db) outcome)
    (room : ((executeAutocommit program).exec session).2.db.HasRoom) :
    Answers ((executeAutocommit program).exec session).1 outcome.1 ∧
      Tracks ((executeAutocommit program).exec session).2 outcome.2 := by
  cases saved : r.saved with
  | some rows =>
    obtain ⟨txnId, running, active⟩ := tracks.running rows saved
    have runs : (executeAutocommit program).exec session =
        ((program.exec session.db).1, { session with db := (program.exec session.db).2 }) := by
      rw [executeAutocommit, exec_bind_ok (exec_get session), running]
      rfl
    -- the transaction stays open
    have onward : ∀ {after : Database} {rows' : String → List (List LiteralValue)}, session.db.Extended after →
        Realizes r.catalog after.objects rows' → Tracks { session with db := after } { r with rows := rows' } := by
      intro after rows' extended realizes
      have stored := tracks.stored
      rw [saved, Option.getD_some] at stored
      refine ⟨extended.frame.catalog_eq.trans tracks.catalog_eq, extended.alone, tracks.keyed, realizes, ?_,
        fun objectId => (tracks.grown objectId).trans (extended.objects objectId), fun closed => ?_, fun _ _ =>
          ⟨txnId, extended.frame.currentTransaction_eq.trans running, extended.frame.activeTxns_eq.trans active⟩⟩
      · show Realizes r.catalog session.files (r.saved.getD rows')
        rw [saved]
        exact stored
      · cases saved.symm.trans closed
    rw [runs] at room ⊢
    have does := does session.db tracks.catalog_eq tracks.alone tracks.working
    revert room does
    cases program.exec session.db with
    | mk result after =>
      rintro room (⟨thrown, still⟩ | ⟨extended, answers, realizes⟩ | ⟨-, noRoom⟩)
      · exact ⟨thrown, onward still.extended (still.objects_eq ▸ tracks.working)⟩
      · exact ⟨answers, onward extended (realizes room)⟩
      · exact absurd room noRoom
  | none =>
    obtain ⟨idle, inactive, clean⟩ := tracks.idle saved
    have alone : (begun session.db).Alone := ⟨tracks.alone.still, tracks.alone.consistent, fun other key held => by
      cases idle.symm.trans (tracks.alone.own other key held)⟩
    -- the transaction ends with these objects
    have ends : ∀ {after : Database} {objects files : Nat → Option ObjectStorage}
        {rows : String → List (List LiteralValue)}, (begun session.db).Extended after →
        Realizes r.catalog objects rows → Realizes r.catalog files rows →
        (∀ objectId, ObjectStorage.Extends (files objectId) (objects objectId)) →
        (∀ objectId, revertObject (files objectId) (objects objectId) = objects objectId) →
        Tracks { db := finish { after with objects := objects } session.db.nextTxnId, files := files }
          { r with rows := rows } := by
      intro after objects files rows extended working stored grown reverted
      have finished := finish_alone extended.alone extended.frame.currentTransaction_eq
      refine ⟨extended.frame.catalog_eq.trans tracks.catalog_eq, ⟨finished.still, finished.consistent, finished.own⟩,
        tracks.keyed, working, ?_, grown, fun _ => ⟨rfl, ?_, reverted⟩, fun rows isOpen => ?_⟩
      · show Realizes r.catalog files (r.saved.getD rows)
        rw [saved]
        exact stored
      · show after.activeTxns.erase session.db.nextTxnId = ∅
        rw [extended.frame.activeTxns_eq, begun, inactive]
        simp
      · cases saved.symm.trans isOpen
    have does := does (begun session.db) tracks.catalog_eq alone tracks.working
    rw [executeAutocommit_exec idle] at room ⊢
    revert room does
    cases program.exec (begun session.db) with
    | mk result after =>
      rintro room (⟨thrown, still⟩ | ⟨extended, answers, realizes⟩ | ⟨extended, noRoom⟩)
      · have unchanged : (fun objectId => revertObject (session.files objectId) (after.objects objectId)) =
            session.db.objects := by
          funext objectId
          rw [still.objects_eq]
          exact clean objectId
        have stored := tracks.stored
        rw [saved, Option.getD_none] at stored
        simp only [unchanged]
        exact ⟨thrown, ends still.extended tracks.working stored tracks.grown clean⟩
      · have realized := realizes ⟨room.heap, room.index⟩
        exact ⟨answers, ends extended realized realized (fun objectId => ObjectStorage.Extends.refl _) fun objectId =>
          revertObject_self _⟩
      · exact absurd (hasRoom_of_reverted (fun objectId => (tracks.grown objectId).trans (extended.objects objectId)) rfl
          room) noRoom

theorem step {stmt : Statement} (named : stmt.Named) (limits : (r.execute stmt).2.WithinLimits)
    (room : session.db.HasRoom) (roomAfter : ((execute stmt).exec session).2.db.HasRoom) :
    Answers ((execute stmt).exec session).1 (r.execute stmt).1 ∧
      Tracks ((execute stmt).exec session).2 (r.execute stmt).2 := by
  have mutates : ∀ (m : Mutation), (r.mutate m).2.WithinLimits →
      ((executeAutocommit m.execute).exec session).2.db.HasRoom →
      Answers ((executeAutocommit m.execute).exec session).1 (r.mutate m).1 ∧
        Tracks ((executeAutocommit m.execute).exec session).2 (r.mutate m).2 := fun m limits room =>
    tracks.autocommits (fun db catalog_eq alone realizes => mutate_does catalog_eq alone tracks.keyed realizes m limits) room
  cases stmt with
  | begin => exact tracks.begins
  | commit => exact tracks.commits
  | rollback => exact tracks.rollsBack room
  | createTable stmt => exact tracks.createsTable stmt named
  | createIndex stmt => exact tracks.createsIndex stmt named limits roomAfter
  | insert stmt => exact mutates (.insert stmt) limits roomAfter
  | update stmt => exact mutates (.update stmt) limits roomAfter
  | delete stmt => exact mutates (.delete stmt) limits roomAfter
  | select stmt =>
    exact tracks.autocommits (fun db catalog_eq alone realizes => query_does catalog_eq alone tracks.keyed realizes stmt)
      roomAfter

end Tracks

theorem tracks_nothing : Tracks {} .nothing := by
  have realizes : Realizes emptyCatalog (fun _ => none) fun _ => [] :=
    ⟨⟨fun _ => [], ⟨by simp [emptyCatalog], by simp [emptyCatalog], by simp [emptyCatalog]⟩, by
      simp [SameRows, emptyCatalog]⟩, by simp [emptyCatalog]⟩
  refine ⟨rfl, ⟨rfl, LockManager.consistent_empty, fun other key held => ?_⟩, Catalog.Built.keyed .empty, realizes, realizes,
    fun _ => trivial, fun _ => ⟨rfl, rfl, fun _ => rfl⟩, (fun _ isOpen => by cases isOpen)⟩
  simp [LockManager.Holds, LockManager.HoldsExclusive, LockManager.HoldsShared] at held

/-- A session's answer to a statement, and the session afterwards. -/
def respond (session : SqlSession) (stmt : Statement) : Except Exception ExecuteResult × SqlSession :=
  (execute stmt).exec session

/-- The rows that are in the data files. -/
def durable (session : SqlSession) : Contents := ({ session.db with objects := session.files } : Database).contents

theorem contents_perm {db : Database} {rows : String → List (List LiteralValue)}
    (realizes : Realizes db.catalog db.objects rows) : SameRows db.catalog db.contents.values rows := by
  obtain ⟨contents, lockstep, same⟩ := realizes.lockstep
  intro table isTable
  rw [Contents.values, contents_eq lockstep isTable]
  exact same table isTable

theorem durable_perm {session : SqlSession} {rows : String → List (List LiteralValue)}
    (realizes : Realizes session.db.catalog session.files rows) :
    SameRows session.db.catalog session.durable.values rows :=
  @contents_perm { session.db with objects := session.files } rows realizes

end SqlSession

/-- A session answers as relations do, statement for statement, whatever its transactions are; in the end it shows the
rows of the relations, and the data files those of the last COMMIT. -/
theorem session_refines_relations (stmts : List Statement) (named : ∀ stmt ∈ stmts, stmt.Named)
    (limits : ∀ before, before <+: stmts → (Machine.after Relations.execute .nothing before).WithinLimits)
    (room : ∀ before, before <+: stmts → (Machine.after SqlSession.respond {} before).db.WithinIds) :
    List.Forall₂ Answers (Machine.answers SqlSession.respond {} stmts) (Machine.answers Relations.execute .nothing stmts) ∧
    ∃ session r, session = Machine.after SqlSession.respond {} stmts ∧
      r = Machine.after Relations.execute .nothing stmts ∧ session.db.catalog = r.catalog ∧
      SameRows r.catalog session.db.contents.values r.rows ∧
      SameRows r.catalog session.durable.values (r.saved.getD r.rows) := by
  obtain ⟨answered, tracks⟩ := Machine.simulates SqlSession.Tracks Answers SqlSession.tracks_nothing
    fun before stmt earlier tracks => by
      have limitsAfter := limits _ earlier
      have roomAfter := room _ earlier
      rw [Machine.after_snoc] at limitsAfter roomAfter
      exact tracks.step (named stmt (earlier.subset (by simp))) limitsAfter
        (room before ((List.prefix_append _ _).trans earlier)).toHasRoom roomAfter.toHasRoom
  refine ⟨answered, _, _, rfl, rfl, tracks.catalog_eq, ?_, ?_⟩
  · have shown := tracks.working
    rw [← tracks.catalog_eq] at shown ⊢
    exact SqlSession.contents_perm shown
  · have stored := tracks.stored
    rw [← tracks.catalog_eq] at stored ⊢
    exact SqlSession.durable_perm stored

def takenBack : List Statement :=
  [.createTable ⟨"t", [⟨"a", .kInteger⟩], none⟩, .begin, .insert ⟨"t", [.integer 7]⟩, .rollback,
    .select { selectStar := true, fromTable := "t" }]

theorem session_refines_relations_rollback : ∃ result,
    (Machine.answers SqlSession.respond {} takenBack).getLast? = some (.ok result) ∧ result.rows = [] := by
  -- what relations are before the INSERT and after the ROLLBACK
  let opened : Relations := ⟨plainCatalog, Function.update (fun _ => []) "t" [], some (Function.update (fun _ => []) "t" [])⟩
  let inserted : Relations := (opened.mutate (.insert ⟨"t", [.integer 7]⟩)).2
  have inserted_catalog : inserted.catalog = plainCatalog := Relations.mutate_catalog _ _
  have reverted : inserted.rollback = (some {}, { opened with saved := none }) := by
    rw [Relations.rollback, show inserted.saved = some (Function.update (fun _ => []) "t" []) from
      Relations.mutate_saved _ _]
    simp [inserted_catalog, opened]
  have selected : ∀ r : Relations, (r.query { selectStar := true, fromTable := "t" }).2 = r := fun r => by
    rw [Relations.query]
    split <;> rfl
  have indexes : ∀ before, before <+: takenBack →
      (Machine.after Relations.execute .nothing before).catalog.indexes = [] := by
    intro before isPrefix
    simp only [takenBack, List.prefix_cons_iff, List.prefix_nil] at isPrefix
    rcases isPrefix with rfl | ⟨_, rfl, rfl | ⟨_, rfl, rfl | ⟨_, rfl, rfl | ⟨_, rfl, rfl | ⟨_, rfl, rfl⟩⟩⟩⟩⟩
    · rfl
    · rfl
    · rfl
    · exact congrArg Catalog.indexes inserted_catalog
    · show inserted.rollback.2.catalog.indexes = []
      rw [reverted]
      rfl
    · show (inserted.rollback.2.query _).2.catalog.indexes = []
      rw [reverted, selected]
      rfl
  obtain ⟨answered, -⟩ := session_refines_relations takenBack (by
      intro stmt isStmt
      simp only [takenBack, List.mem_cons, List.not_mem_nil, or_false] at isStmt
      rcases isStmt with rfl | rfl | rfl | rfl | rfl
      · exact (by decide : IsIdentifier "t")
      all_goals trivial)
    (by
      intro before isPrefix table isTable index onTable
      have isIndex := (Catalog.mem_indexesOnTable.mp onTable).1
      rw [indexes before isPrefix] at isIndex
      cases isIndex)
    (by
      intro before isPrefix
      simp only [takenBack, List.prefix_cons_iff, List.prefix_nil] at isPrefix
      rcases isPrefix with rfl | ⟨_, rfl, rfl | ⟨_, rfl, rfl | ⟨_, rfl, rfl | ⟨_, rfl, rfl | ⟨_, rfl, rfl⟩⟩⟩⟩⟩ <;>
        exact ⟨hasRoom_of_two rfl rfl fun _ => rfl, by decide, by decide⟩)
  have answers_eq : Machine.answers Relations.execute .nothing takenBack =
      [some {}, some {}, (opened.mutate (.insert ⟨"t", [.integer 7]⟩)).1, inserted.rollback.1,
        (inserted.rollback.2.query { selectStar := true, fromTable := "t" }).1] := rfl
  have meaningful : SelectStatement.Meaningful plainCatalog { selectStar := true, fromTable := "t" } :=
    planSelect_meaningful.mp ⟨_, rfl⟩
  have nothingThere : naiveSelect plainCatalog ({ opened with saved := none } : Relations).contents
      { selectStar := true, fromTable := "t" } = [] := by decide
  rw [answers_eq, reverted, Relations.query, if_pos meaningful, nothingThere] at answered
  simp only [takenBack, Machine.answers, List.forall₂_cons] at answered
  obtain ⟨-, -, -, -, answer, -⟩ := answered
  simp only [takenBack, Machine.answers, List.getLast?_cons_cons, List.getLast?_singleton, Option.some.injEq]
  revert answer
  cases (SqlSession.respond _ _).1 with
  | error e => exact False.elim
  | ok result => exact fun answer => ⟨result, rfl, List.Perm.eq_nil answer.1⟩

end FlintDB
