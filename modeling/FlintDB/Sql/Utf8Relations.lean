import FlintDB.Sql.Transactions
import FlintDB.Sql.Utf8Statements

set_option autoImplicit false

namespace FlintDB

open Lib Fallible

def RowsInUtf8 (rows : String → List (List LiteralValue)) : Prop :=
  ∀ tableName, ∀ row ∈ rows tableName, ∀ value ∈ row, value.InUtf8

theorem RowsInUtf8.update {rows : String → List (List LiteralValue)} (utf8 : RowsInUtf8 rows) (tableName : String)
    {news : List (List LiteralValue)} (written : ∀ row ∈ news, ∀ value ∈ row, value.InUtf8) :
    RowsInUtf8 (Function.update rows tableName news) := by
  intro other
  by_cases here : other = tableName
  · rw [here, Function.update_self]
    exact written
  · rw [Function.update_of_ne here]
    exact utf8 other

structure Relations.InUtf8 (r : Relations) : Prop where
  catalog : r.catalog.Plain
  rows : RowsInUtf8 r.rows
  saved : ∀ rows ∈ r.saved, RowsInUtf8 rows

structure ExecuteResult.InUtf8 (result : ExecuteResult) : Prop where
  rows : ∀ row ∈ result.rows, ∀ value ∈ row, value.InUtf8
  columns : ∀ name ∈ result.columnNames, PlainText name

namespace Catalog

variable {catalog after : Catalog}

theorem Plain.pushTable (plain : catalog.Plain) {name : String} (isPlain : PlainText name) {columns : List ColumnDef}
    (named : ∀ column ∈ columns, PlainText column.name) (primaryKeyColumn : Option String)
    (fresh : name ∉ catalog.tables.map TableInfo.name) (columns_ne : columns ≠ [])
    (columns_nodup : (columns.map ColumnDef.name).Nodup) :
    (catalog.pushTable name columns primaryKeyColumn fresh columns_ne columns_nodup).Plain := by
  refine ⟨fun table isTable => ?_, plain.indexes⟩
  rcases List.mem_append.mp isTable with older | newest
  · exact plain.tables table older
  · rw [List.mem_singleton.mp newest]
    exact ⟨isPlain, named⟩

theorem Plain.pushIndex (plain : catalog.Plain) {name tableName columnName : String} (isPlain : PlainText name)
    (named : PlainText columnName) {isPrimaryKey : Bool} (integer : IndexInfo.OverInteger
      { name, tableName, columnName, objectId := catalog.nextObjectId, isPrimaryKey } catalog.tables) :
    (catalog.pushIndex name tableName columnName isPrimaryKey integer).Plain := by
  refine ⟨plain.tables, fun index isIndex => ?_⟩
  rcases List.mem_append.mp isIndex with older | newest
  · exact plain.indexes index older
  · rw [List.mem_singleton.mp newest]
    exact ⟨isPlain, named⟩

theorem Plain.createTable (plain : catalog.Plain) {stmt : CreateTableStatement}
    (wellFormed : (Statement.createTable stmt).WellFormed) {heapId : Nat}
    (created : catalog.createTable stmt.tableName stmt.columns stmt.primaryKeyColumn = .ok (heapId, after)) :
    after.Plain := by
  obtain ⟨isName, -, columns, key⟩ := wellFormed
  obtain ⟨-, fresh, columns_ne, columns_nodup, pushed⟩ := createTable_ok created
  have tablePlain := plain.pushTable isName.plain (fun column isColumn => (columns column isColumn).plain)
    stmt.primaryKeyColumn fresh columns_ne columns_nodup
  rcases pushed with ⟨-, rfl⟩ | ⟨primaryKey, integer, isKey, rfl⟩
  · exact tablePlain
  · obtain ⟨column, isColumn, rfl⟩ := List.mem_map.mp (key primaryKey isKey)
    have keyPlain := (columns column isColumn).plain
    refine tablePlain.pushIndex ?_ keyPlain integer
    simpa [isName.plain, keyPlain] using by decide

theorem Plain.createIndex (plain : catalog.Plain) {stmt : CreateIndexStatement}
    (wellFormed : (Statement.createIndex stmt).WellFormed) {objectId : Nat}
    (created : catalog.createIndex stmt.indexName stmt.tableName stmt.columnName = .ok (objectId, after)) :
    after.Plain := by
  obtain ⟨-, -, table, column, integer, -, -, rfl⟩ := createIndex_ok created
  exact plain.pushIndex wellFormed.1.plain wellFormed.2.2.plain integer

end Catalog

section Values

variable {table : TableInfo} {values : List LiteralValue}

theorem assigned_utf8 {assignments : List Assignment} (utf8 : ∀ assignment ∈ assignments, assignment.value.InUtf8)
    (columnName : String) {value : LiteralValue} (here : value.InUtf8) : (assigned assignments columnName value).InUtf8 := by
  rw [assigned]
  split
  · exact utf8 _ (List.mem_reverse.mp (List.mem_of_find?_eq_some ‹_›))
  · exact here

def Mutation.InUtf8 : Mutation → Prop
  | insert stmt => ∀ value ∈ stmt.values, value.InUtf8
  | update stmt => ∀ assignment ∈ stmt.assignments, assignment.value.InUtf8
  | delete _ => True

theorem Mutation.result_utf8 {m : Mutation} (written : m.InUtf8) {rows : List (List LiteralValue)}
    (utf8 : ∀ row ∈ rows, ∀ value ∈ row, value.InUtf8) : ∀ row ∈ m.result table rows, ∀ value ∈ row, value.InUtf8 := by
  cases m with
  | insert stmt => exact List.forall_mem_append.mpr ⟨utf8, List.forall_mem_singleton.mpr written⟩
  | delete stmt => exact fun row isThere => utf8 row (List.mem_of_mem_filter isThere)
  | update stmt =>
    refine List.forall_mem_map.mpr fun row isThere => ?_
    split
    · intro value isValue
      obtain ⟨i, inside, rfl⟩ := List.mem_iff_getElem.mp isValue
      simp only [rewrite, List.getElem_zipWith]
      exact assigned_utf8 written _ (utf8 row isThere _ (List.getElem_mem _))
    · exact utf8 row isThere

theorem valueAt_utf8 (utf8 : ∀ value ∈ values, value.InUtf8) {columnName : String} {value : LiteralValue}
    (found : table.valueAt values columnName = some value) : value.InUtf8 := by
  rw [TableInfo.valueAt] at found
  split at found
  · exact utf8 value (List.mem_of_getElem? found)
  · cases found

theorem Scope.project_utf8 {scope : Scope} (utf8 : ∀ entry ∈ scope, ∀ value ∈ entry.2, value.InUtf8)
    (stmt : SelectStatement) : ∀ value ∈ scope.project stmt, value.InUtf8 := by
  intro value isValue
  rw [Scope.project] at isValue
  split at isValue
  · obtain ⟨entry, isEntry, isThere⟩ := List.mem_flatMap.mp isValue
    exact utf8 entry isEntry value isThere
  · obtain ⟨column, -, found⟩ := List.mem_filterMap.mp isValue
    rw [Scope.lookup] at found
    split at found
    · exact valueAt_utf8 (utf8 _ (List.mem_of_find?_eq_some ‹_›)) found
    · cases found

theorem scopes_utf8 {catalog : Catalog} {contents : Contents} (utf8 : RowsInUtf8 contents.values)
    (stmt : SelectStatement) :
    ∀ scope ∈ stmt.scopes catalog contents, ∀ entry ∈ scope, ∀ value ∈ entry.2, value.InUtf8 := by
  have rowOf : ∀ {tableName row}, row ∈ contents tableName → ∀ value ∈ row.2, value.InUtf8 := fun isRow =>
    utf8 _ _ (List.mem_map_of_mem isRow)
  intro scope isScope entry isEntry
  rw [SelectStatement.scopes] at isScope
  split at isScope
  · obtain ⟨row, isRow, rfl⟩ := List.mem_map.mp isScope
    rw [List.mem_singleton.mp isEntry]
    exact rowOf isRow
  · split at isScope
    · obtain ⟨outerRow, isOuter, inPairs⟩ := List.mem_flatMap.mp (List.mem_of_mem_filter isScope)
      obtain ⟨innerRow, isInner, rfl⟩ := List.mem_map.mp inPairs
      rcases List.mem_pair.mp isEntry with rfl | rfl
      · exact rowOf isOuter
      · exact rowOf isInner
    · cases isScope
  · cases isScope

end Values

namespace Relations

variable {r : Relations} (utf8 : r.InUtf8)
include utf8

theorem InUtf8.mutate {m : Mutation} (written : m.InUtf8) :
    (r.mutate m).2.InUtf8 ∧ ∀ expected ∈ (r.mutate m).1, expected.InUtf8 := by
  rw [Relations.mutate]
  split
  · exact ⟨utf8, by simp⟩
  · split
    · exact ⟨utf8, by simp⟩
    · refine ⟨⟨utf8.catalog, utf8.rows.update _ (Mutation.result_utf8 written (utf8.rows _)), utf8.saved⟩, ?_⟩
      rintro _ ⟨⟩
      exact ⟨by simp, by simp⟩

theorem InUtf8.query {stmt : SelectStatement} (wellFormed : (Statement.select stmt).WellFormed) :
    ∀ expected ∈ (r.query stmt).1, expected.InUtf8 := by
  rw [Relations.query]
  split
  · rintro _ ⟨⟩
    constructor
    · rw [naiveSelect]
      refine List.forall_mem_map.mpr fun scope isScope => Scope.project_utf8 ?_ stmt
      exact scopes_utf8 (by rw [contents_values]; exact utf8.rows) stmt scope (List.mem_of_mem_filter isScope)
    · have ofTable : ∀ tableName, ∀ name ∈ (r.catalog.findTable tableName).toList.flatMap columnNames, PlainText name := by
        intro tableName name isThere
        obtain ⟨table, isTable, isName⟩ := List.mem_flatMap.mp isThere
        obtain ⟨column, isColumn, rfl⟩ := List.mem_map.mp isName
        have found := Option.mem_toList.mp isTable
        exact (utf8.catalog.tables table (Catalog.findTable_eq_some.mp found).1).columns column isColumn
      dsimp only
      rw [SelectStatement.heading]
      split
      · refine List.forall_mem_append.mpr ⟨ofTable _, fun name isThere => ?_⟩
        obtain ⟨join, -, isName⟩ := List.mem_flatMap.mp isThere
        exact ofTable _ name isName
      · exact List.forall_mem_map.mpr fun column isColumn => (wellFormed.2.1 column isColumn).plain.2
  · simp

theorem InUtf8.transacts :
    (r.beginTransaction.2.InUtf8 ∧ ∀ expected ∈ r.beginTransaction.1, expected.InUtf8) ∧
    (r.commit.2.InUtf8 ∧ ∀ expected ∈ r.commit.1, expected.InUtf8) ∧
    (r.rollback.2.InUtf8 ∧ ∀ expected ∈ r.rollback.1, expected.InUtf8) := by
  have noRows : ∀ expected ∈ some ({} : ExecuteResult), expected.InUtf8 := by
    rintro _ ⟨⟩
    exact ⟨by simp, by simp⟩
  rw [beginTransaction, commit, rollback]
  cases saved : r.saved with
  | none =>
    refine ⟨⟨⟨utf8.catalog, utf8.rows, ?_⟩, noRows⟩, ⟨utf8, by simp⟩, utf8, by simp⟩
    rintro _ ⟨⟩
    exact utf8.rows
  | some rows =>
    exact ⟨⟨utf8, by simp⟩, ⟨⟨utf8.catalog, utf8.rows, by simp⟩, noRows⟩,
      ⟨utf8.catalog, utf8.saved rows saved, by simp⟩, noRows⟩

theorem InUtf8.createTable {stmt : CreateTableStatement} (wellFormed : (Statement.createTable stmt).WellFormed) :
    (r.createTable stmt).2.InUtf8 ∧ ∀ expected ∈ (r.createTable stmt).1, expected.InUtf8 := by
  rw [Relations.createTable]
  split
  · rename_i objectId catalog saved created
    refine ⟨⟨utf8.catalog.createTable wellFormed created, utf8.rows.update _ (by simp), by simp [saved]⟩, ?_⟩
    rintro _ ⟨⟩
    exact ⟨by simp, by simp⟩
  · exact ⟨utf8, by simp⟩

theorem InUtf8.createIndex {stmt : CreateIndexStatement} (wellFormed : (Statement.createIndex stmt).WellFormed) :
    (r.createIndex stmt).2.InUtf8 ∧ ∀ expected ∈ (r.createIndex stmt).1, expected.InUtf8 := by
  rw [Relations.createIndex]
  split
  · rename_i objectId catalog saved created
    refine ⟨⟨utf8.catalog.createIndex wellFormed created, utf8.rows, by simp [saved]⟩, ?_⟩
    rintro _ ⟨⟩
    exact ⟨by simp, by simp⟩
  · exact ⟨utf8, by simp⟩

theorem InUtf8.execute {stmt : Statement} (wellFormed : stmt.WellFormed) (written : stmt.InUtf8) :
    (r.execute stmt).2.InUtf8 ∧ ∀ expected ∈ (r.execute stmt).1, expected.InUtf8 := by
  cases stmt with
  | insert stmt => exact utf8.mutate written
  | update stmt => exact utf8.mutate written
  | delete stmt => exact utf8.mutate trivial
  | select stmt =>
    have unchanged : (r.query stmt).2 = r := by
      rw [Relations.query]
      split <;> rfl
    refine ⟨?_, utf8.query wellFormed⟩
    show (r.query stmt).2.InUtf8
    rw [unchanged]
    exact utf8
  | begin => exact utf8.transacts.1
  | commit => exact utf8.transacts.2.1
  | rollback => exact utf8.transacts.2.2
  | createTable stmt => exact utf8.createTable wellFormed
  | createIndex stmt => exact utf8.createIndex wellFormed

omit utf8 in
theorem inUtf8_nothing : nothing.InUtf8 := by
  refine ⟨⟨by simp [nothing, emptyCatalog], by simp [nothing, emptyCatalog]⟩, ?_, by simp [nothing]⟩
  simp [RowsInUtf8, nothing]

end Relations

end FlintDB
